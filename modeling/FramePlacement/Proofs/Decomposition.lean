import FramePlacement.Proofs.Sweep
/-!
# Runs scope by scope

A run over a tree comes down to runs over single scopes, each with a fresh placer
(`Decomposes`): what failures do under either policy, and what the statistics sum up, follows from
the sweep.  A module is handled scope by scope, and the order in which workers take the scopes up
makes no difference (`runInOrder_eq`).
-/

set_option autoImplicit false

namespace FramePlacement

/-! ## Runs over a tree -/

structure Decomposes (config : Config) (s t : Scope) (result : Except PlacementError Stats) :
    Prop where
  /-- The scopes of the tree are handled in post-order up to the first failure, each as on its
  own. -/
  swept : Swept config (s.covered config) (t.covered config) result
  /-- A scope is covered unless it is a closure and closures are left out. -/
  sites : ∀ path u, (path, u) ∈ s.covered config ↔
    s.at? path = some u ∧ (config.includeClosures = false → path = [])
  /-- Closures come in the order of their identifiers, before the scope around them. -/
  order : (s.covered config).Pairwise fun a b => Scope.Earlier a.1 b.1
  spared : config.includeClosures = false → t.closures = s.closures
  /-- The first scope that fails ends the run.  It and all later ones, the scopes around it among
  them, are as they were. -/
  abort : config.onError = .abort → ∀ before u after error,
    s.covered config = before ++ u :: after → (∀ v ∈ before, v.2.failure? config = none) →
    u.2.failure? config = some error →
    result = .error error ∧
      (∀ v ∈ s.covered config, v.1 <+: u.1 → v ∈ u :: after) ∧
      ∃ done left, t.covered config = done ++ left ∧
        List.Forall₂ (fun v w => ∃ stats, Handled config v w (.ok stats)) before done ∧
        List.Forall₂ Untouched (u :: after) left
  /-- Every scope is handled, and those that fail are marked eager and counted. -/
  fallback : config.onError = .fallback → ∃ stats, result = .ok stats ∧
    stats.fallbacks = (s.covered config).countP (fun u => (u.2.failure? config).isSome) ∧
    List.Forall₂ (fun u w => (∃ own, Handled config u w (.ok own)) ∧
      ∀ error, u.2.failure? config = some error → w.2.body = { u.2.body with eager := true })
      (s.covered config) (t.covered config)
  sums : ∀ stats, result = .ok stats → ∃ each : List Stats,
    List.Forall₂ (fun u own => ∃ after w,
      Checked.placeAlone (Placer.fresh config) u.2 = .ok (after, w, .ok own))
      (s.covered config) each ∧
    stats = each.foldr (· + ·) {}

namespace Scope

variable {config : Config}

theorem mem_covered_iff {s u : Scope} {path : List ClosureId} : (path, u) ∈ s.covered config ↔
    s.at? path = some u ∧ (config.includeClosures = false → path = []) := by
  unfold covered
  cases config.includeClosures with
  | true =>
      rw [if_pos rfl, mem_postOrder_iff]
      exact (and_iff_left fun never => nomatch never).symm
  | false =>
      rw [if_neg Bool.false_ne_true, List.mem_singleton, Prod.mk.injEq]
      constructor
      · rintro ⟨rfl, rfl⟩
        exact ⟨rfl, fun _ => rfl⟩
      · rintro ⟨found, root⟩
        cases root rfl
        exact ⟨rfl, (Option.some.inj found).symm⟩

theorem covered_ordered (s : Scope) (config : Config) :
    (s.covered config).Pairwise fun a b => Earlier a.1 b.1 := by
  unfold covered
  split
  · exact s.postOrder_ordered
  · exact List.pairwise_singleton _ _

theorem run_swept {s : Scope} (safe : s.runDangles config = false) :
    ∃ t result, s.run config = (t, result) ∧
      Swept config (s.covered config) (t.covered config) result ∧
      (config.includeClosures = false → t.closures = s.closures) := by
  unfold runDangles at safe
  unfold Scope.run covered
  cases included : config.includeClosures with
  | true =>
      rw [included, if_pos rfl] at safe
      obtain ⟨t, result, run, swept, _⟩ := runTree_swept config [] s safe
      exact ⟨t, result, run, swept, fun never => nomatch never⟩
  | false =>
      rw [included, if_neg Bool.false_ne_true] at safe
      obtain ⟨body, closures⟩ := s
      obtain ⟨placed, own, alone, handled, _⟩ := handled_of_safe []
        (List.forall₂_same.mpr fun _ _ => ⟨rfl, rfl⟩) safe
      unfold runAfter
      rw [if_neg Bool.false_ne_true, alone]
      cases own with
      | ok stats =>
          refine ⟨node placed closures, .ok stats, ?_, ?_, fun _ => rfl⟩
          · exact congrArg (fun sum => (node placed closures, Except.ok sum)) stats.zero_add
          · exact Swept.cons handled Swept.nil
      | error error =>
          exact ⟨node placed closures, .error error, rfl, Swept.failed handled List.Forall₂.nil,
            fun _ => rfl⟩

theorem decomposes {s t : Scope} {result : Except PlacementError Stats}
    (swept : Swept config (s.covered config) (t.covered config) result)
    (spared : config.includeClosures = false → t.closures = s.closures) :
    Decomposes config s t result where
  swept := swept
  sites _ _ := mem_covered_iff
  order := s.covered_ordered config
  spared := spared
  abort policy before u after error split fine fails := by
    obtain ⟨same, parts⟩ := swept.first_failure policy split fine fails
    refine ⟨same, fun v member around => ?_, parts⟩
    have order := s.covered_ordered config
    rw [split] at member order
    rcases List.mem_append.mp member with first | last
    · exact absurd around
        ((List.pairwise_append.mp order).2.2 v first u List.mem_cons_self).apart
    · exact last
  fallback := swept.fallback
  sums _ := swept.sums

end Scope

/-! ## Modules -/

namespace Scope

mutual
theorem runTree_parallel (config : Config) (parallel : Bool) : ∀ s : Scope,
    s.runTree { config with parallel } = s.runTree config
  | node body closures => by
      rw [runTree, runTree, runForest_parallel config parallel closures]
      rfl

theorem runForest_parallel (config : Config) (parallel : Bool) : ∀ closures : List Scope,
    runForest { config with parallel } closures = runForest config closures
  | [] => rfl
  | closure :: rest => by
      rw [runForest, runForest, runTree_parallel config parallel closure,
        runForest_parallel config parallel rest]
end

mutual
theorem runTreeDangles_parallel (config : Config) (parallel : Bool) : ∀ s : Scope,
    s.runTreeDangles { config with parallel } = s.runTreeDangles config
  | node body closures => by
      rw [runTreeDangles, runTreeDangles, runForestDangles_parallel config parallel closures,
        runForest_parallel config parallel closures]
      rfl

theorem runForestDangles_parallel (config : Config) (parallel : Bool) : ∀ closures : List Scope,
    runForestDangles { config with parallel } closures = runForestDangles config closures
  | [] => rfl
  | closure :: rest => by
      rw [runForestDangles, runForestDangles, runTreeDangles_parallel config parallel closure,
        runTree_parallel config parallel closure, runForestDangles_parallel config parallel rest]
end

theorem run_parallel (s : Scope) (config : Config) (parallel : Bool) :
    s.run { config with parallel } = s.run config := by
  unfold Scope.run
  rw [runTree_parallel]
  rfl

theorem runDangles_parallel (s : Scope) (config : Config) (parallel : Bool) :
    s.runDangles { config with parallel } = s.runDangles config := by
  unfold runDangles
  rw [runTreeDangles_parallel]
  rfl

end Scope

theorem foldl_handle (config : Config) (order : List Nat) (once : order.Nodup)
    (slots : List Slot) (i : Nat) :
    (order.foldl (fun slots i => slots.modify i (Slot.handle config)) slots)[i]? =
      if i ∈ order then slots[i]?.map (Slot.handle config) else slots[i]? := by
  induction order generalizing slots with
  | nil => rfl
  | cons j rest ih =>
      obtain ⟨absent, others⟩ := List.nodup_cons.mp once
      rw [List.foldl_cons, ih others, List.getElem?_modify]
      by_cases here : j = i
      · subst here
        rw [if_neg absent, if_pos List.mem_cons_self]
        simp
      · have same : (i ∈ j :: rest) ↔ i ∈ rest :=
          List.mem_cons.trans (or_iff_right fun equal => here equal.symm)
        simp [here, same]

theorem Slot.handle_eq {config : Config} {s : Scope} (safe : s.runDangles config = false) :
    Slot.handle config { scope := s } =
      { scope := (s.run config).1, result? := some (s.run config).2 } := by
  obtain ⟨after, run, _⟩ := (Placer.fresh config).run_eq safe
  unfold Slot.handle
  rw [run]
  rfl

/-- The order in which workers take up the scopes of a module makes no difference. -/
theorem runInOrder_eq {config : Config} {order : List Nat} {scopes : List Scope}
    (perm : order.Perm (List.range scopes.length))
    (safe : ∀ s ∈ scopes, s.runDangles config = false) :
    runInOrder config order scopes = runModule config scopes := by
  have once : order.Nodup := perm.nodup_iff.mpr List.nodup_range
  have handled : order.foldl (fun slots i => slots.modify i (Slot.handle config))
        (scopes.map fun scope => { scope }) =
      scopes.map fun s => { scope := (s.run config).1, result? := some (s.run config).2 } := by
    refine List.ext_getElem? fun i => ?_
    rw [foldl_handle config order once]
    by_cases inside : i < scopes.length
    · rw [if_pos (perm.mem_iff.mpr (List.mem_range.mpr inside)), List.getElem?_map,
        List.getElem?_map, List.getElem?_eq_getElem inside]
      exact congrArg some (Slot.handle_eq (safe _ (List.getElem_mem inside)))
    · have missing : ¬ i ∈ order := fun member =>
        inside (List.mem_range.mp (perm.mem_iff.mp member))
      rw [if_neg missing, List.getElem?_map, List.getElem?_map,
        List.getElem?_eq_none (Nat.le_of_not_lt inside)]
      rfl
  unfold runInOrder runModule
  dsimp only
  rw [handled, List.map_map, List.map_map, List.map_map, List.filterMap_map]
  exact congrArg (fun results => (_, sumResults results)) (congrFun List.filterMap_eq_map scopes)

theorem sumResults_error {before after : List (Except PlacementError Stats)}
    {error : PlacementError} (fine : ∀ result ∈ before, ∃ stats, result = .ok stats) :
    sumResults (before ++ .error error :: after) = .error error := by
  induction before with
  | nil => rfl
  | cons result rest ih =>
      obtain ⟨stats, rfl⟩ := fine result List.mem_cons_self
      rw [List.cons_append, sumResults, ih fun other member =>
        fine other (List.mem_cons_of_mem _ member)]

theorem sumResults_ok (each : List Stats) :
    sumResults (each.map .ok) = .ok (each.foldr (· + ·) {}) := by
  induction each with
  | nil => rfl
  | cons stats rest ih => rw [List.map_cons, sumResults, ih, List.foldr_cons]

structure ModuleDecomposes (config : Config) (scopes : List Scope)
    (outcomes : List (Scope × Except PlacementError Stats))
    (result : Except PlacementError Stats) : Prop where
  /-- Every top level scope is handled, also after a failure, with the outcome of a fresh placer,
  whether scopes are handled at the same time or not. -/
  alone : ∀ parallel, List.Forall₂ (fun s outcome => ∃ after,
    Checked.placeAll (Placer.fresh { config with parallel }) s = .ok (after, outcome))
    scopes outcomes
  /-- The first error in the order of the module is returned. -/
  error : ∀ before failed error after, outcomes = before ++ (failed, .error error) :: after →
    (∀ outcome ∈ before, ∃ stats, outcome.2 = .ok stats) → result = .error error
  sums : ∀ each : List Stats, outcomes.map Prod.snd = each.map .ok →
    result = .ok (each.foldr (· + ·) {})

theorem runModule_decomposes {config : Config} {scopes : List Scope}
    (safe : ∀ s ∈ scopes, s.runDangles config = false) :
    ModuleDecomposes config scopes (scopes.map fun s => s.run config)
      (runModule config scopes).2 where
  alone parallel := by
    rw [List.forall₂_map_right_iff, List.forall₂_same]
    intro s member
    have also : s.runDangles { config with parallel } = false := by
      rw [s.runDangles_parallel]
      exact safe s member
    obtain ⟨after, run⟩ := (Placer.fresh { config with parallel }).placeAll_eq also
    exact ⟨after, run.trans (congrArg (fun outcome => Except.ok (after, outcome))
      (s.run_parallel config parallel))⟩
  error before failed error after split fine := by
    unfold runModule
    dsimp only
    rw [split, List.map_append]
    refine sumResults_error fun result member => ?_
    obtain ⟨outcome, among, rfl⟩ := List.mem_map.mp member
    exact fine outcome among
  sums each all := by
    unfold runModule
    dsimp only
    rw [all]
    exact sumResults_ok each

/-! ## All runs -/

/-- Runs decompose into runs over single scopes.  A placer, whatever it has handled before, takes
the scopes of a tree in post-order, closures before the scope around them, and each scope that it
reaches ends as a fresh placer leaves it on its own; what became of its closures does not matter.
If failures abort, the first scope that fails gives the error and everything from it on is as it
was; if they fall back, there is no error, and the scopes that fail are marked eager and counted.
The scopes of a module are handled each on its own, by whichever worker, all of them even if one
fails, and the first error in order is returned. -/
theorem run_decomposes (config : Config) :
    (∀ (p used : Placer) (s t : Scope) result, p.config = config →
      Checked.placeAll p s = .ok (used, t, result) → Decomposes config s t result) ∧
    ∀ (order : List Nat) (scopes ends : List Scope) result,
      order.Perm (List.range scopes.length) →
      Checked.placeModule config order scopes = .ok (ends, result) →
      ∃ outcomes, ends = outcomes.map Prod.fst ∧
        ModuleDecomposes config scopes outcomes result := by
  constructor
  · rintro p used s t result rfl done
    unfold Checked.placeAll Fault.guarded at done
    cases safe : s.runDangles p.config with
    | true =>
        rw [safe] at done
        cases done
    | false =>
        obtain ⟨after, placed, _⟩ := p.run_eq safe
        obtain ⟨tree, own, run, swept, spared⟩ := Scope.run_swept safe
        rw [safe, Bool.not_false, if_pos rfl, placed, run] at done
        cases done
        exact Scope.decomposes swept spared
  · intro order scopes ends result perm done
    unfold Checked.placeModule Fault.guarded at done
    cases dangles : scopes.any fun s => s.runDangles config with
    | true =>
        rw [dangles] at done
        cases done
    | false =>
        have safe : ∀ s ∈ scopes, s.runDangles config = false := fun s member =>
          Bool.eq_false_of_not_eq_true (List.any_eq_false.mp dangles s member)
        rw [dangles, Bool.not_false, if_pos rfl, runInOrder_eq perm safe] at done
        cases done
        exact ⟨_, rfl, runModule_decomposes safe⟩

/-- A method with a closure and with a block that control never reaches. -/
def stranding : Scope :=
  .node
    { name := "stranding"
      kind := .method
      layout := ({} : Layout).appendBlock 0 |>.appendBlock 1 |>.appendInsn 0 0 |>.appendInsn 1 0
        |>.appendInsn 2 1
      handlers := #[none, none]
      insns := #[.call none .selfValue "each" [] (some (.closure 0)), .ret .nil, .ret .nil]
      vars := (({} : VarTable).intern (.named "count" 0)).2
      captured := IdSet.ofList [0] } [counting]

/-- After a run over one method, a placer handles the closure of another method and fails at the
method itself.  In a module the two methods are handled all the same. -/
theorem run_decomposes_stranding :
    ∃ p used t, p = ((Placer.fresh .strict).run totalling).1 ∧ p.config = .strict ∧
      Checked.placeAll p stranding = .ok (used, t, .error (.setup (.unreachableBlock 1))) ∧
      counting.failure? .strict = none ∧
      stranding.failure? .strict = some (.setup (.unreachableBlock 1)) ∧
      Decomposes .strict stranding t (.error (.setup (.unreachableBlock 1))) ∧
      [1, 0].Perm (List.range [stranding, totalling].length) ∧
      ∃ ends outcomes, Checked.placeModule .strict [1, 0] [stranding, totalling] =
          .ok (ends, .error (.setup (.unreachableBlock 1))) ∧
        ends = outcomes.map Prod.fst ∧ ModuleDecomposes .strict [stranding, totalling] outcomes
          (.error (.setup (.unreachableBlock 1))) := by
  have safe : ∀ s ∈ [stranding, totalling], s.runDangles .strict = false := by decide
  have lone : counting.runAloneDangles .strict = false ∧
      stranding.runAloneDangles .strict = false := by decide
  have order : [1, 0].Perm (List.range [stranding, totalling].length) := by decide
  obtain ⟨p, handled, config⟩ := (Placer.fresh .strict).run_eq (safe totalling (by simp))
  have known : stranding.runDangles p.config = false := by
    rw [config]
    exact safe stranding (by simp)
  obtain ⟨used, run⟩ := p.placeAll_eq known
  rw [config] at run
  have failed : (stranding.run .strict).2 = .error (.setup (.unreachableBlock 1)) := rfl
  have placed : Checked.placeAll p stranding =
      .ok (used, (stranding.run .strict).1, .error (.setup (.unreachableBlock 1))) := by
    rw [run, ← failed]
    rfl
  have taken : Checked.placeModule .strict [1, 0] [stranding, totalling] =
      .ok ((runModule .strict [stranding, totalling]).1,
        .error (.setup (.unreachableBlock 1))) := by
    unfold Checked.placeModule Fault.guarded
    rw [runInOrder_eq order safe]
    rfl
  obtain ⟨outcomes, ends, parts⟩ := (run_decomposes .strict).2 _ _ _ _ order taken
  refine ⟨p, used, _, by rw [handled], config, placed, ?_, ?_,
    (run_decomposes .strict).1 p used _ _ _ config placed, order, _, outcomes, taken, ends, parts⟩
  · rw [Scope.failure?_eq lone.1]
    rfl
  · rw [Scope.failure?_eq lone.2]
    rfl

end FramePlacement
