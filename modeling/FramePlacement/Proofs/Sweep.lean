import FramePlacement.Proofs.Insertions
import FramePlacement.Proofs.Nesting
import FramePlacement.Proofs.Reuse
/-!
# Runs as sweeps

A run over a scope tree is a sweep over its scopes in post-order: each scope that it reaches ends as
a fresh placer leaves the original scope on its own, and the first failure ends the sweep
(`Swept`).  What a run does to closures does not show from outside: frame instructions access
nothing, so the accesses that the enclosing scope sees are the same before and after
(`Scope.SeenAlike`), and with them its captures and effects.
-/

set_option autoImplicit false

namespace FramePlacement

/-! ## The scopes of a tree in post-order -/

abbrev Site := List ClosureId × Scope

namespace Scope

mutual
/-- The scope and its closures at any depth, each scope after the closures nested in it. -/
def sitesFrom (path : List ClosureId) : Scope → List Site
  | node body closures => sitesFromList path 0 closures ++ [(path, node body closures)]

def sitesFromList (path : List ClosureId) : ClosureId → List Scope → List Site
  | _, [] => []
  | c, closure :: rest => closure.sitesFrom (path ++ [c]) ++ sitesFromList path (c + 1) rest
end

def postOrder (s : Scope) : List Site := s.sitesFrom []

def covered (s : Scope) (config : Config) : List Site :=
  if config.includeClosures then s.postOrder else [([], s)]

mutual
theorem mem_sitesFrom_iff (path : List ClosureId) : ∀ (s : Scope) (site : Site),
    site ∈ s.sitesFrom path ↔ ∃ inner, site.1 = path ++ inner ∧ s.at? inner = some site.2
  | node body closures, site => by
      rw [sitesFrom, List.mem_append, mem_sitesFromList_iff path 0 closures site,
        List.mem_singleton]
      constructor
      · rintro (⟨k, inner, same, found⟩ | rfl)
        · rw [Nat.zero_add] at same
          exact ⟨k :: inner, same, found⟩
        · exact ⟨[], (List.append_nil path).symm, rfl⟩
      · rintro ⟨inner, same, found⟩
        cases inner with
        | nil =>
            rw [List.append_nil] at same
            exact Or.inr (Prod.ext same (Option.some.inj found).symm)
        | cons k inner =>
            refine Or.inl ⟨k, inner, ?_, found⟩
            rw [Nat.zero_add]
            exact same

theorem mem_sitesFromList_iff (path : List ClosureId) : ∀ (c : ClosureId) (closures : List Scope)
    (site : Site), site ∈ sitesFromList path c closures ↔ ∃ k inner,
      site.1 = path ++ (c + k) :: inner ∧ (closures[k]?).bind (at? inner) = some site.2
  | c, [], site => by
      rw [sitesFromList]
      constructor
      · intro member
        cases member
      · rintro ⟨k, inner, _, found⟩
        cases found
  | c, closure :: rest, site => by
      rw [sitesFromList, List.mem_append, mem_sitesFrom_iff (path ++ [c]) closure site,
        mem_sitesFromList_iff path (c + 1) rest site]
      constructor
      · rintro (⟨inner, same, found⟩ | ⟨k, inner, same, found⟩)
        · exact ⟨0, inner, by rw [same, List.append_assoc]; rfl, found⟩
        · refine ⟨k + 1, inner, ?_, found⟩
          rw [same, Nat.add_assoc, Nat.add_comm 1]
      · rintro ⟨k, inner, same, found⟩
        cases k with
        | zero => exact Or.inl ⟨inner, by rw [same, List.append_assoc]; rfl, found⟩
        | succ k =>
            refine Or.inr ⟨k, inner, ?_, found⟩
            rw [same, Nat.add_assoc, Nat.add_comm 1]
end

theorem mem_postOrder_iff {s u : Scope} {path : List ClosureId} :
    (path, u) ∈ s.postOrder ↔ s.at? path = some u := by
  unfold postOrder
  rw [mem_sitesFrom_iff]
  constructor
  · rintro ⟨inner, same, found⟩
    rw [List.nil_append] at same
    rw [← same] at found
    exact found
  · intro found
    exact ⟨path, (List.nil_append path).symm, found⟩

/-- The first path comes before the second in post-order: it leads on inwards from there, or turns
to a closure with a smaller identifier. -/
def Earlier (path other : List ClosureId) : Prop :=
  (∃ c inner, path = other ++ c :: inner) ∨
    ∃ common c d inner outer, c < d ∧ path = common ++ c :: inner ∧ other = common ++ d :: outer

theorem Earlier.apart {path other : List ClosureId} (earlier : Earlier path other) :
    ¬ path <+: other := by
  intro starts
  rcases earlier with ⟨c, inner, rfl⟩ | ⟨common, c, d, inner, outer, less, rfl, rfl⟩
  · have short := starts.length_le
    rw [List.length_append, List.length_cons] at short
    omega
  · rw [List.prefix_append_right_inj] at starts
    exact Nat.ne_of_lt less (List.cons_prefix_cons.mp starts).1

mutual
theorem sitesFrom_ordered (path : List ClosureId) : ∀ s : Scope,
    (s.sitesFrom path).Pairwise fun a b => Earlier a.1 b.1
  | node body closures => by
      rw [sitesFrom]
      refine List.pairwise_append.mpr ⟨sitesFromList_ordered path 0 closures,
        List.pairwise_singleton _ _, fun a among b last => ?_⟩
      obtain ⟨k, inner, same, _⟩ := (mem_sitesFromList_iff path 0 closures a).mp among
      rw [List.mem_singleton.mp last]
      exact Or.inl ⟨0 + k, inner, same⟩

theorem sitesFromList_ordered (path : List ClosureId) : ∀ (c : ClosureId) (closures : List Scope),
    (sitesFromList path c closures).Pairwise fun a b => Earlier a.1 b.1
  | _, [] => List.Pairwise.nil
  | c, closure :: rest => by
      rw [sitesFromList]
      refine List.pairwise_append.mpr ⟨sitesFrom_ordered (path ++ [c]) closure,
        sitesFromList_ordered path (c + 1) rest, fun a first b later => ?_⟩
      obtain ⟨inner, left, _⟩ := (mem_sitesFrom_iff (path ++ [c]) closure a).mp first
      obtain ⟨k, outer, right, _⟩ := (mem_sitesFromList_iff path (c + 1) rest b).mp later
      rw [List.append_assoc] at left
      exact Or.inr ⟨path, c, c + 1 + k, inner, outer, Nat.lt_add_right k (Nat.lt_succ_self c),
        left, right⟩
end

theorem postOrder_ordered (s : Scope) : s.postOrder.Pairwise fun a b => Earlier a.1 b.1 :=
  sitesFrom_ordered [] s

/-! ## What an enclosing scope sees -/

/-- Two closures look the same to the scopes that enclose them. -/
structure SeenAlike (s t : Scope) : Prop where
  free : t.freeAccesses = s.freeAccesses
  known : t.accessesKnown = s.accessesKnown

section Closures

variable {closures done : List Scope} (alike : List.Forall₂ SeenAlike closures done)
include alike

theorem freeAccessesOfList_of_alike : freeAccessesOfList done = freeAccessesOfList closures := by
  induction alike with
  | nil => rfl
  | cons first _ ih => rw [freeAccessesOfList, freeAccessesOfList, first.free, ih]

theorem accessesKnownOfList_of_alike :
    accessesKnownOfList done = accessesKnownOfList closures := by
  induction alike with
  | nil => rfl
  | cons first _ ih => rw [accessesKnownOfList, accessesKnownOfList, first.known, ih]

theorem captures_of_alike (body : Body) :
    (node body done).captures = (node body closures).captures := by
  have summaries : done.map (captureSummary body.vars) =
      closures.map (captureSummary body.vars) := by
    induction alike with
    | nil => rfl
    | cons first _ ih =>
        rw [List.map_cons, List.map_cons, ih]
        unfold captureSummary
        rw [first.free]
  unfold captures
  exact congrArg Captures.mk summaries

theorem runAloneDangles_of_alike (body : Body) (config : Config) :
    (node body done).runAloneDangles config = (node body closures).runAloneDangles config := by
  have inside : (node body done).capturesKnown = (node body closures).capturesKnown :=
    accessesKnownOfList_of_alike alike
  unfold runAloneDangles placeDangles Scope.effects
  rw [inside, captures_of_alike alike]
  rfl

end Closures

theorem SeenAlike.node {body placed : Body} {closures done : List Scope}
    (free : placed.ownAccesses = body.ownAccesses)
    (known : placed.accessesKnown = body.accessesKnown)
    (alike : List.Forall₂ SeenAlike closures done) :
    SeenAlike (.node body closures) (.node placed done) where
  free := by rw [freeAccesses, freeAccesses, free, freeAccessesOfList_of_alike alike]
  known := by rw [accessesKnown, accessesKnown, known, accessesKnownOfList_of_alike alike]

end Scope

theorem Body.Extends.accessesKnown {s t : Body} (extend : s.Extends t)
    (known : s.insnsKnown = true) (still : t.insnsKnown = true) :
    t.accessesKnown = s.accessesKnown := by
  unfold Body.accessesKnown
  rw [known, still, ← extend.allCode, Bool.true_and, Bool.true_and, Bool.eq_iff_iff]
  unfold Body.varsKnown
  rw [extend.vars, List.all_eq_true, List.all_eq_true]
  constructor
  · intro all entry member
    exact all entry (List.mem_filter.mp member).1
  · intro all entry member
    obtain ⟨b, inside⟩ := Body.mem_allCode_iff.mp member
    cases own : s.owns entry with
    | true => exact all entry (List.mem_filter.mpr ⟨member, own⟩)
    | false => rw [extend.fresh b entry inside own, Bool.true_or]

/-! ## One scope -/

theorem Body.run_alike {body placed : Body} {closures : List Scope} {config : Config}
    {result : Except PlacementError Stats}
    (safe : (Scope.node body closures).runAloneDangles config = false)
    (run : body.run config (Scope.node body closures).captures = (placed, result)) :
    placed.ownAccesses = body.ownAccesses ∧ placed.accessesKnown = body.accessesKnown := by
  unfold Body.run at run
  split at run
  · cases run
    exact ⟨rfl, rfl⟩
  · next proper =>
      split at run
      · next stats place =>
          cases run
          have lazy : (Scope.node body closures).body.isExempt = false :=
            Bool.eq_false_of_not_eq_true proper
          have known := Scope.insnsKnown_of_runAloneDangles lazy safe
          obtain ⟨frame, _⟩ := Body.place_eq_ok place
          obtain ⟨extend, still, _, _⟩ := Body.insertFrameInsns_settled known frame
          exact ⟨extend.ownAccesses, extend.accessesKnown known still⟩
      · split at run
        · cases run
          exact ⟨rfl, rfl⟩
        · cases run
          exact ⟨rfl, rfl⟩

/-- A scope was handled: it is as a fresh placer leaves it and with the result of that placer,
whether its closures are taken as they were or as they have become. -/
structure Handled (config : Config) (u w : Site) (result : Except PlacementError Stats) : Prop where
  place : w.1 = u.1
  alone : ∀ closures ∈ [u.2.closures, w.2.closures], ∃ after,
    Checked.placeAlone (Placer.fresh config) (.node u.2.body closures) =
      .ok (after, .node w.2.body closures, result)

structure Untouched (u w : Site) : Prop where
  place : w.1 = u.1
  body : w.2.body = u.2.body

theorem Placer.placeAlone_eq (p : Placer) {s : Scope} (safe : s.runAloneDangles p.config = false) :
    ∃ after, Checked.placeAlone p s = .ok (after, s.runAlone p.config) := by
  obtain ⟨after, run, _⟩ := p.runAlone_eq safe
  refine ⟨after, ?_⟩
  unfold Checked.placeAlone Fault.guarded
  rw [safe, run]
  rfl

theorem Placer.placeAll_eq (p : Placer) {s : Scope} (safe : s.runDangles p.config = false) :
    ∃ after, Checked.placeAll p s = .ok (after, s.run p.config) := by
  obtain ⟨after, run, _⟩ := p.run_eq safe
  refine ⟨after, ?_⟩
  unfold Checked.placeAll Fault.guarded
  rw [safe, run]
  rfl

/-- A scope whose closures were handled is handled as it would have been before them. -/
theorem handled_of_safe {config : Config} {body : Body} {closures done : List Scope}
    (path : List ClosureId) (alike : List.Forall₂ Scope.SeenAlike closures done)
    (safe : (Scope.node body done).runAloneDangles config = false) :
    ∃ placed result, (Scope.node body done).runAlone config = (.node placed done, result) ∧
      Handled config (path, .node body closures) (path, .node placed done) result ∧
      Scope.SeenAlike (.node body closures) (.node placed done) := by
  have before : (Scope.node body closures).runAloneDangles config = false := by
    rw [← Scope.runAloneDangles_of_alike alike]
    exact safe
  have captures := Scope.captures_of_alike alike body
  obtain ⟨placed, result, run⟩ : ∃ placed result,
      body.run config (Scope.node body done).captures = (placed, result) := ⟨_, _, rfl⟩
  have alone : ∀ inner ∈ [closures, done],
      (Scope.node body inner).runAloneDangles config = false ∧
        (Scope.node body inner).runAlone config = (.node placed inner, result) := by
    intro inner member
    have same : (Scope.node body inner).runAloneDangles config = false ∧
        (Scope.node body inner).captures = (Scope.node body done).captures := by
      rcases List.mem_cons.mp member with rfl | last
      · exact ⟨before, captures.symm⟩
      · rw [List.mem_singleton.mp last]
        exact ⟨safe, rfl⟩
    refine ⟨same.1, ?_⟩
    unfold Scope.runAlone
    rw [same.2]
    exact congrArg (fun found : Body × Except PlacementError Stats =>
      (Scope.node found.1 inner, found.2)) run
  obtain ⟨free, known⟩ := Body.run_alike safe run
  refine ⟨placed, result, (alone done (by simp)).2, ⟨rfl, fun inner member => ?_⟩,
    Scope.SeenAlike.node free known alike⟩
  obtain ⟨lone, ran⟩ := alone inner member
  obtain ⟨after, checked⟩ := (Placer.fresh config).placeAlone_eq lone
  exact ⟨after, ran ▸ checked⟩

/-! ## All scopes of a tree -/

/-- The scopes of a list were handled in order, up to the first failure. -/
inductive Swept (config : Config) :
    List Site → List Site → Except PlacementError Stats → Prop where
  | nil : Swept config [] [] (.ok {})
  | cons {u w : Site} {us ws : List Site} {stats more : Stats} :
      Handled config u w (.ok stats) → Swept config us ws (.ok more) →
      Swept config (u :: us) (w :: ws) (.ok (stats + more))
  | later {u w : Site} {us ws : List Site} {stats : Stats} {error : PlacementError} :
      Handled config u w (.ok stats) → Swept config us ws (.error error) →
      Swept config (u :: us) (w :: ws) (.error error)
  | failed {u w : Site} {us ws : List Site} {error : PlacementError} :
      Handled config u w (.error error) → List.Forall₂ Untouched us ws →
      Swept config (u :: us) (w :: ws) (.error error)

namespace Stats

theorem zero_add (stats : Stats) : {} + stats = stats := by
  obtain ⟨allocs, stores, loads, fallbacks, visits⟩ := stats
  change Stats.mk _ _ _ _ _ = _
  simp

theorem add_zero (stats : Stats) : stats + {} = stats := rfl

theorem add_assoc (first second third : Stats) :
    first + second + third = first + (second + third) := by
  change Stats.mk _ _ _ _ _ = Stats.mk _ _ _ _ _
  simp only [HAdd.hAdd, Add.add, add, Stats.mk.injEq]
  exact ⟨Nat.add_assoc _ _ _, Nat.add_assoc _ _ _, Nat.add_assoc _ _ _, Nat.add_assoc _ _ _,
    Nat.add_assoc _ _ _⟩

end Stats

theorem untouched_self (sites : List Site) : List.Forall₂ Untouched sites sites :=
  List.forall₂_same.mpr fun _ _ => ⟨rfl, rfl⟩

namespace Swept

variable {config : Config} {us ws vs xs : List Site} {done more : Stats} {error : PlacementError}

theorem append (first : Swept config us ws (.ok done)) (second : Swept config vs xs (.ok more)) :
    Swept config (us ++ vs) (ws ++ xs) (.ok (done + more)) := by
  generalize whole : Except.ok (ε := PlacementError) done = result at first
  induction first generalizing done with
  | nil =>
      cases whole
      rw [Stats.zero_add]
      exact second
  | cons here _ ih =>
      cases whole
      rw [Stats.add_assoc]
      exact Swept.cons here (ih rfl)
  | later => cases whole
  | failed => cases whole

theorem append_error (first : Swept config us ws (.ok done))
    (second : Swept config vs xs (.error error)) :
    Swept config (us ++ vs) (ws ++ xs) (.error error) := by
  generalize whole : Except.ok (ε := PlacementError) done = result at first
  induction first generalizing done with
  | nil => exact second
  | cons here _ ih => exact Swept.later here (ih rfl)
  | later => cases whole
  | failed => cases whole

theorem append_untouched (first : Swept config us ws (.error error))
    (rest : List.Forall₂ Untouched vs xs) : Swept config (us ++ vs) (ws ++ xs) (.error error) := by
  generalize whole : Except.error (α := Stats) error = result at first
  induction first with
  | nil => cases whole
  | cons => cases whole
  | later here _ ih =>
      cases whole
      exact Swept.later here (ih rfl)
  | failed here others =>
      cases whole
      exact Swept.failed here (List.rel_append others rest)

end Swept

namespace Scope

mutual
theorem runTree_swept (config : Config) (path : List ClosureId) : ∀ s : Scope,
    s.runTreeDangles config = false → ∃ t result, s.runTree config = (t, result) ∧
      Swept config (s.sitesFrom path) (t.sitesFrom path) result ∧ SeenAlike s t
  | node body closures, safe => by
      rw [runTreeDangles, Bool.or_eq_false_iff] at safe
      obtain ⟨done, result, run, swept, alike⟩ := runForest_swept config path 0 closures safe.1
      rw [run] at safe
      rw [runTree, run, sitesFrom]
      cases result with
      | error error =>
          refine ⟨node body done, .error error, rfl, ?_, SeenAlike.node rfl rfl alike⟩
          rw [sitesFrom]
          exact swept.append_untouched (List.Forall₂.cons ⟨rfl, rfl⟩ List.Forall₂.nil)
      | ok before =>
          obtain ⟨placed, own, alone, handled, seen⟩ := handled_of_safe path alike safe.2
          dsimp only
          unfold runAfter
          rw [alone]
          cases own with
          | ok stats =>
              refine ⟨node placed done, .ok (before + stats), rfl, ?_, seen⟩
              rw [sitesFrom, ← stats.add_zero]
              exact swept.append (Swept.cons handled Swept.nil)
          | error error =>
              refine ⟨node placed done, .error error, rfl, ?_, seen⟩
              rw [sitesFrom]
              exact swept.append_error (Swept.failed handled List.Forall₂.nil)

theorem runForest_swept (config : Config) (path : List ClosureId) :
    ∀ (c : ClosureId) (closures : List Scope), runForestDangles config closures = false →
      ∃ done result, runForest config closures = (done, result) ∧
        Swept config (sitesFromList path c closures) (sitesFromList path c done) result ∧
        List.Forall₂ SeenAlike closures done
  | _, [], _ => ⟨[], .ok {}, rfl, Swept.nil, List.Forall₂.nil⟩
  | c, closure :: rest, safe => by
      rw [runForestDangles, Bool.or_eq_false_iff] at safe
      obtain ⟨t, result, run, swept, seen⟩ := runTree_swept config (path ++ [c]) closure safe.1
      rw [run] at safe
      rw [runForest, run, sitesFromList]
      cases result with
      | error error =>
          refine ⟨t :: rest, .error error, rfl, ?_,
            List.Forall₂.cons seen (List.forall₂_same.mpr fun _ _ => ⟨rfl, rfl⟩)⟩
          rw [sitesFromList]
          exact swept.append_untouched (untouched_self _)
      | ok before =>
          obtain ⟨done, result, run, others, alike⟩ :=
            runForest_swept config path (c + 1) rest safe.2
          dsimp only
          rw [run]
          cases result with
          | ok more =>
              refine ⟨t :: done, .ok (before + more), rfl, ?_, List.Forall₂.cons seen alike⟩
              rw [sitesFromList]
              exact swept.append others
          | error error =>
              refine ⟨t :: done, .error error, rfl, ?_, List.Forall₂.cons seen alike⟩
              rw [sitesFromList]
              exact swept.append_error others
end

end Scope

/-! ## Failures -/

def Scope.failure? (s : Scope) (config : Config) : Option PlacementError :=
  match Checked.placeAlone (Placer.fresh { config with onError := .abort }) s with
  | .ok (_, _, .error error) => some error
  | _ => none

theorem Body.fallbacks_of_place {s t : Body} {verified : Bool} {captures : Captures} {stats : Stats}
    (placed : s.place verified captures = .ok (t, stats)) : stats.fallbacks = 0 := by
  obtain ⟨frame, _⟩ := Body.place_eq_ok placed
  obtain ⟨moved, done, moves, _, rfl⟩ := Body.insertFrameInsns_eq_ok frame
  obtain ⟨_, _, _, _, ⟨_, _, counts⟩ | ⟨_, _, _, counts⟩⟩ := Body.insertMoves_eq_ok moves
  · rw [counts]
    rfl
  · rw [counts]
    rfl

theorem Scope.failure?_eq {s : Scope} {config : Config} (safe : s.runAloneDangles config = false) :
    s.failure? config =
      if s.body.isExempt then none
      else match s.body.place config.verify s.captures with
        | .ok _ => none
        | .error error => some error := by
  have strict : s.runAloneDangles { config with onError := .abort } = false := safe
  obtain ⟨after, run⟩ := (Placer.fresh { config with onError := .abort }).placeAlone_eq strict
  unfold failure?
  rw [run]
  unfold Scope.runAlone Body.run Placer.fresh
  by_cases exempt : s.body.isExempt = true
  · simp only [if_pos exempt]
  · simp only [if_neg exempt]
    cases s.body.place config.verify s.captures with
    | ok both => rfl
    | error error => rfl

theorem Placer.of_placeAlone {p after : Placer} {s t : Scope} {result : Except PlacementError Stats}
    (run : Checked.placeAlone p s = .ok (after, t, result)) :
    s.runAloneDangles p.config = false ∧ s.runAlone p.config = (t, result) := by
  unfold Checked.placeAlone Fault.guarded at run
  cases safe : s.runAloneDangles p.config with
  | true =>
      rw [safe] at run
      cases run
  | false =>
      obtain ⟨used, same, _⟩ := p.runAlone_eq safe
      rw [safe, Bool.not_false, if_pos rfl, same] at run
      exact ⟨rfl, congrArg Prod.snd (Except.ok.inj run)⟩

theorem Scope.outcome_of_runAlone {s t : Scope} {config : Config}
    {result : Except PlacementError Stats} (safe : s.runAloneDangles config = false)
    (run : s.runAlone config = (t, result)) :
    (s.failure? config = none ∧ ∃ stats, result = .ok stats ∧ stats.fallbacks = 0) ∨
      ∃ error, s.failure? config = some error ∧
        (config.onError = .abort ∧ result = .error error ∧ t.body = s.body ∨
          config.onError = .fallback ∧ result = .ok { fallbacks := 1 } ∧
            t.body = { s.body with eager := true }) := by
  rw [failure?_eq safe]
  unfold runAlone Body.run at run
  by_cases exempt : s.body.isExempt = true
  · rw [if_pos exempt] at run ⊢
    cases run
    exact Or.inl ⟨rfl, _, rfl, rfl⟩
  · rw [if_neg exempt] at run ⊢
    cases place : s.body.place config.verify s.captures with
    | ok both =>
        rw [place] at run
        cases run
        exact Or.inl ⟨rfl, _, rfl, Body.fallbacks_of_place place⟩
    | error error =>
        rw [place] at run
        cases policy : config.onError with
        | abort =>
            rw [policy] at run
            cases run
            exact Or.inr ⟨error, rfl, Or.inl ⟨rfl, rfl, rfl⟩⟩
        | fallback =>
            rw [policy] at run
            cases run
            exact Or.inr ⟨error, rfl, Or.inr ⟨rfl, rfl, rfl⟩⟩

theorem Handled.outcome {config : Config} {u w : Site} {result : Except PlacementError Stats}
    (handled : Handled config u w result) :
    (u.2.failure? config = none ∧ ∃ stats, result = .ok stats ∧ stats.fallbacks = 0) ∨
      ∃ error, u.2.failure? config = some error ∧
        (config.onError = .abort ∧ result = .error error ∧ w.2.body = u.2.body ∨
          config.onError = .fallback ∧ result = .ok { fallbacks := 1 } ∧
            w.2.body = { u.2.body with eager := true }) := by
  obtain ⟨path, body, closures⟩ := u
  obtain ⟨after, checked⟩ := handled.alone closures List.mem_cons_self
  obtain ⟨safe, run⟩ := Placer.of_placeAlone checked
  exact Scope.outcome_of_runAlone (t := .node w.2.body closures) safe run

namespace Swept

variable {config : Config} {us ws : List Site} {result : Except PlacementError Stats}

theorem first_failure (swept : Swept config us ws result) (policy : config.onError = .abort)
    {before after : List Site} {u : Site} {error : PlacementError}
    (split : us = before ++ u :: after)
    (fine : ∀ v ∈ before, v.2.failure? config = none) (fails : u.2.failure? config = some error) :
    result = .error error ∧ ∃ done left, ws = done ++ left ∧
      List.Forall₂ (fun v w => ∃ stats, Handled config v w (.ok stats)) before done ∧
      List.Forall₂ Untouched (u :: after) left := by
  induction before generalizing us ws result with
  | nil =>
      subst split
      have failed : ∀ {w : Site} {own : Except PlacementError Stats}, Handled config u w own →
          own = .error error ∧ w.2.body = u.2.body := by
        intro w own handled
        rcases handled.outcome with ⟨none, _⟩ | ⟨cause, some, ⟨_, own, kept⟩ | ⟨other, _⟩⟩
        · rw [fails] at none
          cases none
        · rw [fails] at some
          cases some
          exact ⟨own, kept⟩
        · rw [policy] at other
          cases other
      cases swept with
      | cons handled _ => cases (failed handled).1
      | later handled _ => cases (failed handled).1
      | @failed _ w _ ws _ handled rest =>
          obtain ⟨same, kept⟩ := failed handled
          exact ⟨same, [], w :: ws, rfl, List.Forall₂.nil,
            List.Forall₂.cons ⟨handled.place, kept⟩ rest⟩
  | cons v before ih =>
      subst split
      have others : ∀ x ∈ before, x.2.failure? config = none := fun x member =>
        fine x (List.mem_cons_of_mem v member)
      cases swept with
      | cons handled rest => cases (ih rest rfl others).1
      | @later _ w _ ws stats _ handled rest =>
          obtain ⟨same, done, left, whole, first, last⟩ := ih rest rfl others
          exact ⟨same, w :: done, left, by rw [whole]; rfl,
            List.Forall₂.cons ⟨stats, handled⟩ first, last⟩
      | failed handled _ =>
          rcases handled.outcome with ⟨_, _, ok, _⟩ | ⟨cause, some, _⟩
          · cases ok
          · rw [fine v List.mem_cons_self] at some
            cases some

theorem fallback (swept : Swept config us ws result) (policy : config.onError = .fallback) :
    ∃ stats, result = .ok stats ∧
      stats.fallbacks = us.countP (fun u => (u.2.failure? config).isSome) ∧
      List.Forall₂ (fun u w => (∃ own, Handled config u w (.ok own)) ∧
        ∀ error, u.2.failure? config = some error → w.2.body = { u.2.body with eager := true })
        us ws := by
  have fine : ∀ {u w : Site} {own : Except PlacementError Stats}, Handled config u w own →
      ∃ stats, own = .ok stats ∧
        stats.fallbacks = (if (u.2.failure? config).isSome then 1 else 0) ∧
        ∀ error, u.2.failure? config = some error → w.2.body = { u.2.body with eager := true } := by
    intro u w own handled
    rcases handled.outcome with ⟨none, stats, ok, kept⟩ | ⟨cause, some, ⟨other, _⟩ | ⟨_, ok, eager⟩⟩
    · rw [none]
      exact ⟨stats, ok, kept, fun error some => by cases some⟩
    · rw [policy] at other
      cases other
    · rw [some]
      exact ⟨_, ok, rfl, fun _ _ => eager⟩
  induction swept with
  | nil => exact ⟨{}, rfl, rfl, List.Forall₂.nil⟩
  | @cons u w us ws stats more handled _ ih =>
      obtain ⟨total, same, counts, all⟩ := ih
      obtain ⟨own, also, here, eager⟩ := fine handled
      cases same
      cases also
      refine ⟨stats + more, rfl, ?_, List.Forall₂.cons ⟨⟨stats, handled⟩, eager⟩ all⟩
      change stats.fallbacks + more.fallbacks = _
      rw [List.countP_cons, counts, here, Nat.add_comm]
  | later _ _ ih =>
      obtain ⟨_, same, _⟩ := ih
      cases same
  | failed handled _ =>
      obtain ⟨_, same, _⟩ := fine handled
      cases same

theorem sums (swept : Swept config us ws result) {stats : Stats} (ok : result = .ok stats) :
    ∃ each : List Stats, List.Forall₂ (fun u own => ∃ after w,
        Checked.placeAlone (Placer.fresh config) u.2 = .ok (after, w, .ok own)) us each ∧
      stats = each.foldr (· + ·) {} := by
  induction swept generalizing stats with
  | nil =>
      cases ok
      exact ⟨[], List.Forall₂.nil, rfl⟩
  | @cons u w us ws own more handled _ ih =>
      cases ok
      obtain ⟨each, all, sum⟩ := ih rfl
      obtain ⟨path, body, closures⟩ := u
      obtain ⟨after, alone⟩ := handled.alone closures List.mem_cons_self
      refine ⟨own :: each, List.Forall₂.cons ⟨after, _, alone⟩ all, ?_⟩
      rw [List.foldr_cons, ← sum]
  | later => cases ok
  | failed => cases ok

end Swept

end FramePlacement
