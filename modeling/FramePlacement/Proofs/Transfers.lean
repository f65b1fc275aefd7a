import FramePlacement.Proofs.Settled
/-!
# What inserted moves copy

A store that was inserted stands behind a write of its variable, so the slot it copies is not stale.
A load that was inserted is for a variable that may be stale, so there is a frame to copy
(`Effects.GoodMoves`).  Both hold of every scope that is placed without frame instructions in it
(`Body.insertFrameInsns_goodMoves`).
-/

set_option autoImplicit false

namespace FramePlacement

/-- Stores copy slots that are not stale, and loads copy frames of candidates. -/
structure Effects.GoodMoves (e : Effects) (s : Body) : Prop where
  store : ∀ {b : BlockId} {above rest : Code} {i : InsnId} {v : VarId},
    s.code b = above ++ (i, .storeFrame v) :: rest →
    ¬ e.MayBeStale s v ⟨b, (i, .storeFrame v) :: rest⟩
  load : ∀ {b : BlockId} {i : InsnId} {v : VarId},
    (i, Insn.loadFrame v) ∈ s.code b → v ∈ e.candidates

namespace Effects.GoodMoves

variable {s t : Body} {e : Effects}

theorem of_bare (bare : ∀ entry ∈ s.allCode, entry.2.isFrameInsn = false) : e.GoodMoves s where
  store code := by
    have plain := bare _ (Body.mem_allCode_of_code code)
    cases plain
  load member := by
    have plain := bare _ (Body.mem_allCode_of_mem_code member)
    cases plain

theorem extend (good : e.GoodMoves s) (extend : s.Extends t)
    (stores : ∀ {b : BlockId} {above rest : Code} {i : InsnId} {v : VarId},
      t.code b = above ++ (i, .storeFrame v) :: rest → s.owns (i, .storeFrame v) = false →
      ¬ e.MayBeStale t v ⟨b, (i, .storeFrame v) :: rest⟩)
    (loads : ∀ {b : BlockId} {i : InsnId} {v : VarId}, (i, Insn.loadFrame v) ∈ t.code b →
      s.owns (i, .loadFrame v) = false → v ∈ e.candidates) : e.GoodMoves t where
  store {b above rest i v} code := by
    cases own : s.owns (i, .storeFrame v) with
    | false => exact stores code own
    | true =>
        intro stale
        have shown := extend.mayBeStale stale
        unfold Body.shadow at shown
        rw [List.filter_cons_of_pos own] at shown
        exact good.store (extend.split code own) shown
  load {b i v} member := by
    cases own : s.owns (i, .loadFrame v) with
    | false => exact loads member own
    | true => exact good.load (extend.mem_code_of_owns member own)

end Effects.GoodMoves

section Phases

variable {s t : Body} {e : Effects} {v : VarId}

theorem not_mayBeStale_behind_write {b : BlockId} {above stores rest : Code}
    {entry : InsnId × Insn} (code : s.code b = above ++ entry :: (stores ++ rest))
    (writes : entry.2.writesSlot v = true) (all : ∀ m ∈ stores, m.2.isStore = true) :
    ¬ e.MayBeStale s v ⟨b, rest⟩ := by
  have result : entry.2.result? = some v := by
    unfold Insn.writesSlot at writes
    rw [Bool.and_eq_true, beq_iff_eq] at writes
    exact writes.2
  induction stores using List.reverseRecOn generalizing rest with
  | nil =>
      intro stale
      rcases (arises_behind_iff code).mp stale with starts | ⟨_, kept⟩
      · exact starts.2.2 result
      · exact kept.2.1 result
  | append_singleton stores last ih =>
      intro stale
      have here : s.code b = (above ++ entry :: stores) ++ last :: rest := by simpa using code
      have store : last.2.isStore = true := all last (by simp)
      rcases (arises_behind_iff here).mp stale with starts | ⟨earlier, _⟩
      · have call := starts.isCall
        rw [Insn.isCall_of_frame (Insn.isFrameInsn_of_isStore store)] at call
        cases call
      · have others : ∀ m ∈ stores, m.2.isStore = true :=
          fun m inside => all m (List.mem_append_left _ inside)
        exact ih (by simpa using code) others earlier

theorem Effects.GoodMoves.withStores (good : e.GoodMoves s) (known : s.insnsKnown = true)
    {marks : List Mark} (due : ∀ w v, (w, v) ∈ marks ↔ e.DueStore s w v) :
    e.GoodMoves (s.withStores marks) := by
  obtain ⟨behind, woven, _, only⟩ := withStores_woven known due
  obtain ⟨extend, _, _⟩ := withStores_settles known due
  -- what is new stands behind the write that it is for
  have added : ∀ {b entry}, entry ∈ (s.withStores marks).code b → s.owns entry = false →
      ∃ write ∈ s.code b, entry ∈ behind write.1 := by
    intro b entry member foreign
    rw [woven.code] at member
    obtain ⟨write, among, here⟩ := List.mem_flatMap.mp member
    rcases List.mem_cons.mp (here : entry ∈ write :: behind write.1) with rfl | later
    · rw [show s.owns entry = true from decide_eq_true (Body.lt_size_of_mem_code among)] at foreign
      cases foreign
    · exact ⟨write, among, later⟩
  refine good.extend extend ?_ ?_
  · intro b above rest i x code foreign
    obtain ⟨write, among, later⟩ := added (by rw [code]; simp) foreign
    obtain ⟨front, back, old⟩ := List.append_of_mem among
    obtain ⟨stores, more, parts⟩ := List.append_of_mem later
    have whole : (s.withStores marks).code b =
        (weave Prod.fst (fun _ => []) behind front ++ write :: stores) ++
          (i, .storeFrame x) :: (more ++ weave Prod.fst (fun _ => []) behind back) := by
      rw [woven.code, old, weave_append, weave_cons, parts]
      simp only [List.nil_append, List.append_assoc, List.cons_append]
    obtain ⟨_, rfl⟩ := Body.code_split_unique code whole
    have marked : (write.1, x) ∈ marks := by
      obtain ⟨y, same, marked⟩ := only write.1 _ later
      cases same
      exact marked
    have writes := writesSlot_of_dueStore ((due _ _).mp marked) among
    refine not_mayBeStale_behind_write (by simpa using whole) writes fun m inside => ?_
    obtain ⟨y, store, _⟩ := only write.1 m (by rw [parts]; simp [inside])
    rw [store]
    rfl
  · intro b i x member foreign
    obtain ⟨write, _, later⟩ := added member foreign
    obtain ⟨y, same, _⟩ := only write.1 _ later
    cases same

theorem Effects.GoodMoves.withLoads (good : e.GoodMoves s) (known : s.insnsKnown = true)
    {marks : List Mark} (due : ∀ r v, (r, v) ∈ marks ↔ e.StaleRead s r v)
    (candidates : ∀ r v, e.StaleRead s r v → v ∈ e.candidates) :
    e.GoodMoves (s.withLoads marks) := by
  obtain ⟨before, woven, _, only⟩ := withLoads_woven known due
  obtain ⟨extend, _, _⟩ := withLoads_settles known due
  have added : ∀ {b entry}, entry ∈ (s.withLoads marks).code b → s.owns entry = false →
      ∃ r x, entry.2 = .loadFrame x ∧ (r, x) ∈ marks := by
    intro b entry member foreign
    rw [woven.code] at member
    obtain ⟨read, among, here⟩ := List.mem_flatMap.mp member
    rcases List.mem_append.mp here with earlier | itself
    · obtain ⟨x, load, marked⟩ := only read.1 entry earlier
      exact ⟨read.1, x, load, marked⟩
    · rw [List.mem_singleton.mp itself,
        show s.owns read = true from decide_eq_true (Body.lt_size_of_mem_code among)] at foreign
      cases foreign
  refine good.extend extend ?_ ?_
  · intro b above rest i x code foreign
    obtain ⟨_, _, load, _⟩ := added (by rw [code]; simp) foreign
    cases load
  · intro b i x member foreign
    obtain ⟨r, _, load, marked⟩ := added member foreign
    cases load
    exact candidates r x ((due r x).mp marked)

end Phases

section Whole

variable {s t : Body} {captures : Captures}

theorem candidate_of_mayBeStale {v : VarId} {point : Point}
    (stale : (s.effects captures).MayBeStale s v point) : v ∈ (s.effects captures).candidates := by
  obtain ⟨start, springs, _⟩ := stale
  cases springs with
  | entry enclosing _ => exact Body.enclosing_subset enclosing
  | complete _ starts => exact Body.clobbered_subset starts.2.1
  | raise _ _ _ starts => exact Body.clobbered_subset starts.2

theorem Body.insertFrameInsns_goodMoves (known : s.insnsKnown = true)
    (bare : ∀ entry ∈ s.allCode, entry.2.isFrameInsn = false) {stats : Stats}
    (placed : s.insertFrameInsns (s.effects captures) s.flowGraph = .ok (t, stats)) :
    (s.effects captures).GoodMoves t := by
  obtain ⟨moved, done, moves, rfl, _⟩ := Body.insertFrameInsns_eq_ok placed
  obtain ⟨first, loads, second, rfl, due, stale, again, _⟩ := Body.insertMoves_phases known moves
  obtain ⟨stored, storedKnown, _⟩ := withStores_settles known due
  obtain ⟨_, loadedKnown, _⟩ := withLoads_settles storedKnown stale
  obtain ⟨_, movedKnown, _⟩ := withStores_settles loadedKnown again
  have good : (s.effects captures).GoodMoves
      (((s.withStores first).withLoads loads).withStores second) := by
    refine Effects.GoodMoves.withStores (Effects.GoodMoves.withLoads
      (Effects.GoodMoves.withStores (Effects.GoodMoves.of_bare bare) known due) storedKnown stale
      fun r v read => ?_) loadedKnown again
    obtain ⟨b, above, insn, rest, _, _, _, arises⟩ := read
    exact candidate_of_mayBeStale (stored.mayBeStale arises)
  obtain ⟨extend, _, allocs⟩ := Body.allocated_extends movedKnown (s.effects captures)
  refine good.extend extend ?_ ?_
  · intro b above rest i v code foreign
    have alloc := allocs b (i, .storeFrame v) (by rw [code]; simp) foreign
    cases alloc
  · intro b i v member foreign
    have alloc := allocs b _ member foreign
    cases alloc

end Whole

end FramePlacement
