import FramePlacement.Proofs.BackwardWalk
/-!
# The placement of stores

The stores that are due are exactly the writes from which some path leads to an observation, past
no other write and no sync of the variable (`mem_dueStores_iff`).  One direction reads a walk as a
path; the other starts a walk at the observation, where the variable is unsynced because of that
path.
-/

set_option autoImplicit false

namespace FramePlacement

open Relation

namespace Effects

variable {e : Effects} {s : Body} {sol : Solution IdSet} {v : VarId}

theorem mem_unsynced_iff {canLeave : Bool} {code : Code} {fact : IdSet} {p : ScanPoint} :
    (v, p) ∈ e.unsynced canLeave code fact ↔ ∃ above i insn rest,
      code = above ++ (i, insn) :: rest ∧ p = .before i ∧ v ∈ e.observation canLeave i insn ∧
        ¬ v ∈ e.storeProblem.after above fact := by
  induction code generalizing fact with
  | nil => simp [unsynced]
  | cons first below ih =>
      obtain ⟨j, head⟩ := first
      rw [unsynced, List.mem_append, ih]
      constructor
      · rintro (here | ⟨above, i, insn, rest, rfl, same, observed, absent⟩)
        · obtain ⟨w, member, same⟩ := List.mem_map.mp here
          cases same
          have both := IdSet.mem_sdiff.mp (IdSet.mem_toList.mp member)
          exact ⟨[], j, head, below, rfl, rfl, both.1, both.2⟩
        · exact ⟨(j, head) :: above, i, insn, rest, rfl, same, observed, absent⟩
      · rintro ⟨above, i, insn, rest, code, same, observed, absent⟩
        cases above with
        | nil =>
            cases code
            refine Or.inl (List.mem_map.mpr ⟨v, ?_, by rw [same]⟩)
            exact IdSet.mem_toList.mpr (IdSet.mem_sdiff.mpr ⟨observed, absent⟩)
        | cons first above =>
            obtain ⟨rfl, rfl⟩ := List.cons.inj code
            exact Or.inr ⟨above, i, insn, rest, rfl, same, observed, absent⟩

theorem mem_unsyncedIn_iff {b : BlockId} (listed : b ∈ s.layout.blocks) {p : ScanPoint} :
    (v, p) ∈ e.unsyncedIn s s.flowGraph sol b ↔ ∃ above rest, s.Locates p b above rest ∧
      e.Observes s v ⟨b, rest⟩ ∧ ¬ v ∈ e.storeProblem.after above (sol.ins.get b) := by
  have inside : (v, p) ∈ e.unsynced (s.handler? b).isNone (s.code b) (sol.ins.get b) ↔
      ∃ above i insn rest, s.code b = above ++ (i, insn) :: rest ∧ p = .before i ∧
        e.Observes s v ⟨b, (i, insn) :: rest⟩ ∧
        ¬ v ∈ e.storeProblem.after above (sol.ins.get b) := by
    simp only [mem_unsynced_iff, observes_cons_iff]
  have atEnd : (v, p) ∈ ((e.exitObserved \ e.storeProblem.after (s.code b)
      (sol.ins.get b)).toList.map fun v => (v, ScanPoint.bottom b)) ↔ p = .bottom b ∧
        v ∈ e.exitObserved ∧ ¬ v ∈ e.storeProblem.after (s.code b) (sol.ins.get b) := by
    constructor
    · intro member
      obtain ⟨w, among, same⟩ := List.mem_map.mp member
      cases same
      exact ⟨rfl, IdSet.mem_sdiff.mp (IdSet.mem_toList.mp among)⟩
    · rintro ⟨rfl, member⟩
      exact List.mem_map.mpr ⟨v, IdSet.mem_toList.mpr (IdSet.mem_sdiff.mpr member), rfl⟩
  have whole : (v, p) ∈ e.unsyncedIn s s.flowGraph sol b ↔
      (v, p) ∈ e.unsynced (s.handler? b).isNone (s.code b) (sol.ins.get b) ∨
        p = .bottom b ∧ e.Observes s v ⟨b, []⟩ ∧
          ¬ v ∈ e.storeProblem.after (s.code b) (sol.ins.get b) := by
    rw [observes_nil_iff listed]
    unfold unsyncedIn
    dsimp only
    split
    · next falls =>
        rw [List.mem_append, atEnd]
        simp only [falls, true_and]
    · next stays =>
        simp [stays]
  rw [whole, inside]
  constructor
  · rintro (⟨above, i, insn, rest, code, rfl, observes, absent⟩ | ⟨rfl, observes, absent⟩)
    · exact ⟨above, _, Body.Locates.before code, observes, absent⟩
    · exact ⟨s.code b, [], Body.Locates.bottom, observes, absent⟩
  · rintro ⟨above, rest, locates, observes, absent⟩
    cases locates with
    | bottom => exact Or.inr ⟨rfl, observes, absent⟩
    | before code => exact Or.inl ⟨above, _, _, _, code, rfl, observes, absent⟩

theorem insn_of_sight {p : ScanPoint} {b : BlockId} {above rest : Code} {w : InsnId}
    (locates : s.Locates p b above rest) (sees : e.sight v (s.codeAbove p) = .write w) :
    ∃ upper insn between, s.code b = upper ++ (w, insn) :: (between ++ rest) ∧
      insn.writesSlot v = true ∧ ∀ entry ∈ between, e.StaysUnsynced v .completes entry := by
  rw [locates.codeAbove] at sees
  obtain ⟨between, insn, upper, split, writes, free⟩ := split_of_sight_write sees
  refine ⟨upper.reverse, insn, between.reverse, ?_, writes,
    fun entry member => free entry (List.mem_reverse.mp member)⟩
  have above_eq : above = upper.reverse ++ (w, insn) :: between.reverse := by
    rw [← List.reverse_reverse above, split]
    simp
  rw [locates.code, above_eq, List.append_assoc, List.cons_append]

end Effects

section Exact

variable {s : Body} {captures : Captures} {v : VarId} {entry : BlockId}

theorem Effects.Observes.candidate {t : Body} {point : Point}
    (observes : (s.effects captures).Observes t v point) : v ∈ (s.effects captures).candidates := by
  cases observes with
  | load candidate => exact candidate
  | call _ member => exact Body.observed_subset member
  | leavingCall _ _ member => exact Body.exitObserved_subset member
  | ret member => exact Body.exitObserved_subset member
  | leavingRaise _ member => exact Body.exitObserved_subset member
  | bottom _ _ _ member => exact Body.exitObserved_subset member

theorem demanded_of_due (setup : s.checkSetup s.flowGraph = .ok entry) {start point : Point}
    (springs : Springs s False (Effects.Renews v) start)
    (inside : ∃ above, s.code start.block = above ++ start.rest)
    (leads : Leads s ((s.effects captures).StaysUnsynced v) start point)
    (observes : (s.effects captures).Observes s v point) :
    ∃ p above, s.Locates p point.block above point.rest ∧
      (v, p) ∈ s.layout.blocks.flatMap ((s.effects captures).unsyncedIn s s.flowGraph
        ((s.effects captures).storeProblem.solved s s.flowGraph entry)) := by
  obtain ⟨above, code⟩ := suffix_of_leads inside leads
  have absent := (unsynced_iff setup observes.candidate code).mpr ⟨start, springs, leads⟩
  obtain ⟨b, rest⟩ := point
  cases rest with
  | nil =>
      have listed : b ∈ s.layout.blocks := by
        cases observes with
        | bottom listed _ _ _ => exact listed
      have whole : above = s.code b := (List.append_nil above).symm.trans code.symm
      subst whole
      exact ⟨.bottom b, _, Body.Locates.bottom, List.mem_flatMap.mpr ⟨b, listed,
        (Effects.mem_unsyncedIn_iff listed).mpr ⟨_, [], Body.Locates.bottom, observes, absent⟩⟩⟩
  | cons first rest =>
      have listed := Body.mem_blocks_of_code code
      have locates : s.Locates (.before first.1) b above (first :: rest) :=
        Body.Locates.before code
      exact ⟨_, above, locates, List.mem_flatMap.mpr ⟨b, listed,
        (Effects.mem_unsyncedIn_iff listed).mpr ⟨above, _, locates, observes, absent⟩⟩⟩

/-- The marked writes before they are sorted: those found from the demands of their variable. -/
theorem found_iff_dueStore (setup : s.checkSetup s.flowGraph = .ok entry) {w : InsnId} :
    (∃ p, (v, p) ∈ s.layout.blocks.flatMap ((s.effects captures).unsyncedIn s s.flowGraph
        ((s.effects captures).storeProblem.solved s s.flowGraph entry)) ∧
      ∃ q, ReflTransGen (fun a b => b ∈ (s.effects captures).scan s s.flowGraph
        ((s.effects captures).storeProblem.solved s s.flowGraph entry) v a) p q ∧
          (s.effects captures).sight v (s.codeAbove q) = .write w) ↔
      (s.effects captures).DueStore s w v := by
  constructor
  · rintro ⟨p, demanded, q, walk, sees⟩
    obtain ⟨b, listed, member⟩ := List.mem_flatMap.mp demanded
    obtain ⟨above, rest, locates, observes, _⟩ := (Effects.mem_unsyncedIn_iff listed).mp member
    obtain ⟨c, up, down, here, leads⟩ := Effects.leads_of_walk locates walk
    obtain ⟨upper, insn, between, code, writes, free⟩ := Effects.insn_of_sight here sees
    exact ⟨c, upper, insn, _, ⟨b, rest⟩, code, writes, (Leads.through free).trans leads, observes⟩
  · rintro ⟨c, upper, insn, under, point, code, writes, leads, observes⟩
    have springs : Springs s False (Effects.Renews v) ⟨c, under⟩ := Springs.complete code writes
    have inside : ∃ above, s.code c = above ++ under :=
      ⟨upper ++ [(w, insn)], code.trans (List.append_cons _ _ _)⟩
    obtain ⟨p, above, locates, demanded⟩ := demanded_of_due setup springs inside leads observes
    have past : (s.effects captures).ComesPast s v p point :=
      ⟨above, [], point.rest, by rwa [List.append_nil], rfl,
        fun _ none => absurd none List.not_mem_nil⟩
    obtain ⟨q, walk, reaches⟩ := walk_of_leads setup observes.candidate springs inside
      (fun _ walk _ stepped => walk.tail stepped) leads past ReflTransGen.refl
    exact ⟨p, demanded, q, walk, reaches.write code writes⟩

theorem mem_dueStores_iff (setup : s.checkSetup s.flowGraph = .ok entry) {w : InsnId} :
    (w, v) ∈ (s.effects captures).dueStores s s.flowGraph
        ((s.effects captures).storeProblem.solved s s.flowGraph entry) ↔
      (s.effects captures).DueStore s w v := by
  have result : ∀ {x : VarId}, (s.effects captures).DueStore s w x →
      (s.insn? w).bind Insn.result? = some x := by
    rintro x ⟨c, upper, insn, under, point, code, writes, _, _⟩
    have member : (w, insn) ∈ s.code c := Body.mem_code_of_split code
    rw [(Body.mem_code_iff.mp member).2]
    unfold Insn.writesSlot at writes
    rw [Bool.and_eq_true, beq_iff_eq] at writes
    exact writes.2
  have found : ∀ {x : VarId}, w ∈ (s.effects captures).reachingWrites s s.flowGraph
        ((s.effects captures).storeProblem.solved s s.flowGraph entry) x
        (((s.layout.blocks.flatMap ((s.effects captures).unsyncedIn s s.flowGraph
          ((s.effects captures).storeProblem.solved s s.flowGraph entry))).filter
            fun demand => demand.1 == x).map Prod.snd) ↔
      (s.effects captures).DueStore s w x := by
    intro x
    rw [Effects.mem_reachingWrites_iff, ← found_iff_dueStore setup]
    refine exists_congr fun p => and_congr_left fun _ => ?_
    rw [List.mem_map]
    constructor
    · rintro ⟨⟨y, q⟩, member, rfl⟩
      obtain ⟨inside, same⟩ := List.mem_filter.mp member
      rw [← show y = x by simpa using same]
      exact inside
    · intro inside
      exact ⟨(x, p), List.mem_filter.mpr ⟨inside, by simp⟩, rfl⟩
  unfold Effects.dueStores
  simp only [List.mem_filterMap, IdSet.mem_toList, IdSet.mem_ofList, List.mem_flatMap]
  constructor
  · rintro ⟨i, ⟨x, _, reached⟩, pair⟩
    obtain ⟨y, read, same⟩ := Option.map_eq_some_iff.mp pair
    cases same
    have due := found.mp reached
    rw [result due] at read
    cases read
    exact due
  · intro due
    refine ⟨w, ⟨v, ?_, found.mpr due⟩, ?_⟩
    · obtain ⟨p, demanded, _⟩ := (found_iff_dueStore setup).mpr due
      exact List.mem_map.mpr ⟨(v, p), demanded, rfl⟩
    · rw [result due]
      rfl

end Exact

theorem Effects.dueStores_ascending (e : Effects) (s : Body) (g : FlowGraph)
    (sol : Solution IdSet) : (e.dueStores s g sol).Pairwise fun a b => a.1 < b.1 := by
  unfold dueStores
  refine List.Pairwise.filterMap _ ?_ (IdSet.toList_ascending _)
  intro i j less a first b second
  obtain ⟨_, _, rfl⟩ := Option.map_eq_some_iff.mp first
  obtain ⟨_, _, rfl⟩ := Option.map_eq_some_iff.mp second
  exact less

end FramePlacement
