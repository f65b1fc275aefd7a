import FramePlacement.Placement.Load
import FramePlacement.Proofs.Candidates
import FramePlacement.Proofs.Exposure
/-!
# Staleness and the placement of loads

A variable may be stale at a point when some path leads there from where its frame got ahead of its
slot, and nothing on the way made the slot good again: neither a read, before which a load is going
to stand, nor a write, nor a transfer between slot and frame.  `Effects.MayBeStale` says this about
paths alone.  The solved facts of the load analysis are exactly these paths (`stale_iff`), and the
loads that are due are exactly the reads of variables that may be stale (`mem_dueLoads_iff`).
-/

set_option autoImplicit false

namespace FramePlacement

namespace Effects

/-- Nested code may leave a value of `v` in the frame that the slot misses: a call that completes
may have written the slot itself, as its result. -/
def Outdates (e : Effects) (v : VarId) : Passing
  | .completes, (i, insn) => insn.isCall ∧ v ∈ e.clobbered.get i ∧ insn.result? ≠ some v
  | .raises, (i, insn) => insn.isCall ∧ v ∈ e.clobbered.get i

/-- The same of an instruction that need not belong to the scope whose effects these are. -/
def Overtakes (e : Effects) (v : VarId) : Passing
  | .completes, (i, insn) =>
      insn.movedVar? = none ∧ v ∈ e.clobbered.get i ∧ insn.result? ≠ some v
  | .raises, (i, _) => v ∈ e.clobbered.get i

theorem Outdates.isCall {e : Effects} {v : VarId} {passage : Passage} {entry : InsnId × Insn}
    (outdates : e.Outdates v passage entry) : entry.2.isCall = true := by
  cases passage with
  | completes => exact outdates.1
  | raises => exact outdates.1

/-- What is stale stays stale.  An instruction left by raising has read its operands but has not
written its result. -/
def LeavesStale (v : VarId) : Passing
  | .completes, (_, insn) =>
      ¬ v ∈ insn.usedVars ∧ insn.result? ≠ some v ∧ insn.movedVar? ≠ some v
  | .raises, (_, insn) => ¬ v ∈ insn.usedVars

/-- On some path to the point, the frame of `v` may have got ahead of its slot. -/
def MayBeStale (e : Effects) (s : Body) (v : VarId) (point : Point) : Prop :=
  Arises s (v ∈ e.enclosing) (e.Outdates v) (LeavesStale v) point

end Effects

/-- An instruction of the scope's own reads a variable that may be stale right before it. -/
def Effects.StaleRead (e : Effects) (s : Body) (r : InsnId) (v : VarId) : Prop :=
  ∃ b above insn rest, s.code b = above ++ (r, insn) :: rest ∧ insn.isFrameInsn = false ∧
    v ∈ insn.usedVars ∧ e.MayBeStale s v ⟨b, (r, insn) :: rest⟩

/-- The variables an instruction of the scope's own reads, each at its first use. -/
def readsOf (entry : InsnId × Insn) : List Mark :=
  if entry.2.isFrameInsn then [] else entry.2.usedVars.eraseDups.map fun v => (entry.1, v)

def Body.reads (s : Body) : List Mark := s.allCode.flatMap readsOf

/-! ## The analysis -/

section Analysis

variable {s : Body} {captures : Captures} {v : VarId}

theorem mem_staleAfterReads {e : Effects} {i : InsnId} {insn : Insn} {fact : IdSet} :
    v ∈ e.staleAfterReads i insn fact ↔
      v ∈ e.clobbered.get i ∨ v ∈ fact ∧ ¬ v ∈ insn.usedVars := by
  unfold Effects.staleAfterReads
  rw [IdSet.mem_union, IdSet.mem_eraseAll, Or.comm, And.comm]

theorem mem_loadTransfer {e : Effects} {i : InsnId} {insn : Insn} {fact : IdSet} :
    v ∈ e.loadProblem.transfer i insn fact ↔
      insn.movedVar? = none ∧ v ∈ e.clobbered.get i ∧ insn.result? ≠ some v ∨
        v ∈ fact ∧ Effects.LeavesStale v .completes (i, insn) := by
  unfold Effects.loadProblem Effects.LeavesStale
  cases insn with
  | storeFrame w => simp [Insn.movedVar?, Insn.usedVars, Insn.result?, and_comm, eq_comm]
  | loadFrame w =>
      simp [Insn.movedVar?, Insn.usedVars, Insn.result?, Insn.operands, and_comm, eq_comm]
  | call dst receiver method args block =>
      cases dst with
      | none => simp [Insn.movedVar?, Insn.result?, mem_staleAfterReads]
      | some w =>
          simp only [Insn.movedVar?, Insn.result?, IdSet.mem_erase, mem_staleAfterReads]
          simp [eq_comm]
          tauto
  | receiveArg w index | copy w src | receiveException w =>
      simp only [Insn.movedVar?, Insn.result?, IdSet.mem_erase, mem_staleAfterReads]
      simp [eq_comm]
      tauto
  | jump dest | branch cond onTrue onFalse | ret value | raise exception | allocFrame =>
      simp [Insn.movedVar?, Insn.result?, mem_staleAfterReads]

theorem loadProblem_tracks (e : Effects) (s : Body) (v : VarId) :
    e.loadProblem.Tracks s (v ∈ ·) (e.Overtakes v) (Effects.LeavesStale v) where
  initial := IdSet.not_mem_empty v
  meet _ _ := IdSet.mem_union
  transfer _ _ _ := mem_loadTransfer
  transferRaise _ _ _ := mem_staleAfterReads

/-- In its own scope what is clobbered is clobbered by calls. -/
theorem outdates_iff {passage : Passage} {entry : InsnId × Insn} (inside : entry ∈ s.allCode) :
    (s.effects captures).Outdates v passage entry ↔
      (s.effects captures).Overtakes v passage entry := by
  obtain ⟨i, insn⟩ := entry
  cases passage with
  | completes =>
      constructor
      · rintro ⟨call, clobbers, differs⟩
        cases insn with
        | call dst receiver method args block => exact ⟨rfl, clobbers, differs⟩
        | _ => cases call
      · rintro ⟨_, clobbers, differs⟩
        exact ⟨Body.isCall_of_clobbered inside clobbers, clobbers, differs⟩
  | raises =>
      exact ⟨And.right, fun clobbers => ⟨Body.isCall_of_clobbered inside clobbers, clobbers⟩⟩

theorem loadProblem_tracks_own (s : Body) (captures : Captures) (v : VarId) :
    (s.effects captures).loadProblem.Tracks s (v ∈ ·) ((s.effects captures).Outdates v)
      (Effects.LeavesStale v) where
  initial := (loadProblem_tracks _ s v).initial
  meet := (loadProblem_tracks _ s v).meet
  transfer entry inside a := by
    rw [outdates_iff inside]
    exact (loadProblem_tracks _ s v).transfer entry inside a
  transferRaise entry inside a := by
    rw [outdates_iff inside]
    exact (loadProblem_tracks _ s v).transferRaise entry inside a

theorem loadProblem_semilattice (s : Body) (captures : Captures) :
    (s.effects captures).loadProblem.Semilattice
      (IdSet.Among (s.effects captures).candidates)
      fun fact => (s.effects captures).candidates.size - fact.size :=
  Problem.semilattice_union rfl rfl (fun _ member => Body.enclosing_subset member) rfl

theorem loadProblem_distributiveOn (s t : Body) (captures : Captures) :
    (s.effects captures).loadProblem.DistributiveOn t
      (IdSet.Among (s.effects captures).candidates) := by
  refine Problem.DistributiveOn.of_tracks (fun v _ => loadProblem_tracks _ t v) ?_
    (fun amongA amongB => amongA.union amongB) ?_ ?_
  · intro a b amongA amongB same
    ext v
    exact ⟨fun member => (same v (amongA v member)).mp member,
      fun member => (same v (amongB v member)).mpr member⟩
  · intro one a among v member
    rcases mem_loadTransfer.mp member with ⟨_, clobbers, _⟩ | ⟨old, _⟩
    · exact Body.clobbered_subset clobbers
    · exact among v old
  · intro one a among v member
    rcases mem_staleAfterReads.mp member with clobbers | ⟨old, _⟩
    · exact Body.clobbered_subset clobbers
    · exact among v old

theorem loadProblem_monotoneOn (s : Body) (captures : Captures) :
    (s.effects captures).loadProblem.MonotoneOn s
      (IdSet.Among (s.effects captures).candidates) :=
  (loadProblem_distributiveOn s s captures).monotoneOn

variable {entry : BlockId}

/-- The solved facts of the load analysis before and after every instruction: the variables that
may be stale there. -/
theorem stale_iff (setup : s.checkSetup s.flowGraph = .ok entry) {b : BlockId} {above rest : Code}
    (code : s.code b = above ++ rest) :
    v ∈ (s.effects captures).loadProblem.after above
        (((s.effects captures).loadProblem.solved s s.flowGraph entry).ins.get b) ↔
      (s.effects captures).MayBeStale s v ⟨b, rest⟩ :=
  Problem.solved_iff_arises (loadProblem_tracks_own s captures v)
    (loadProblem_monotoneOn s captures) (loadProblem_semilattice s captures) rfl setup code

end Analysis

/-! ## The reads of stale variables -/

/-- Once read, a variable is passed over like one that is not stale. -/
theorem firstStale_filter_ne {stale : IdSet} {v : VarId} (absent : ¬ v ∈ stale)
    (reads : List VarId) :
    firstStale stale (reads.filter fun w => !w == v) = firstStale stale reads := by
  induction reads generalizing stale with
  | nil => rfl
  | cons w rest ih =>
      by_cases same : w = v
      · subst same
        rw [List.filter_cons_of_neg (by simp), ih absent, firstStale, if_neg absent]
      · rw [List.filter_cons_of_pos (by simpa using same), firstStale, firstStale]
        have later : ¬ v ∈ stale.erase w := fun member => absent (IdSet.mem_erase.mp member).2
        rw [ih later, ih absent]

theorem firstStale_erase (stale : IdSet) (v : VarId) (reads : List VarId) :
    firstStale (stale.erase v) reads =
      firstStale stale (reads.filter fun w => !w == v) := by
  induction reads generalizing stale with
  | nil => rfl
  | cons w rest ih =>
      by_cases same : w = v
      · subst same
        have absent : ¬ w ∈ stale.erase w := fun member => (IdSet.mem_erase.mp member).1 rfl
        rw [List.filter_cons_of_neg (by simp), firstStale, if_neg absent, ih]
      · rw [List.filter_cons_of_pos (by simpa using same), firstStale, firstStale]
        have swap : (stale.erase v).erase w = (stale.erase w).erase v := by
          ext x
          simp only [IdSet.mem_erase]
          exact and_left_comm
        have member : w ∈ stale.erase v ↔ w ∈ stale :=
          IdSet.mem_erase.trans (and_iff_right same)
        rw [swap, ih, ih]
        simp only [member]

theorem firstStale_eq_filter (stale : IdSet) (reads : List VarId) :
    firstStale stale reads = reads.eraseDups.filter fun v => decide (v ∈ stale) := by
  induction count : reads.length using Nat.strongRecOn generalizing reads with
  | ind length ih =>
      cases reads with
      | nil => rfl
      | cons v rest =>
          have shorter : (rest.filter fun w => !w == v).length < length := by
            have bound := List.length_filter_le (fun w => !w == v) rest
            rw [List.length_cons] at count
            omega
          rw [List.eraseDups_cons, firstStale]
          split
          · next member =>
              rw [List.filter_cons_of_pos (by simpa using member), firstStale_erase,
                ih _ shorter _ rfl]
          · next absent =>
              rw [List.filter_cons_of_neg (by simpa using absent),
                ← firstStale_filter_ne absent rest, ih _ shorter _ rfl]

theorem nodup_eraseDups (reads : List VarId) : reads.eraseDups.Nodup := by
  induction count : reads.length using Nat.strongRecOn generalizing reads with
  | ind length ih =>
      cases reads with
      | nil => exact List.nodup_nil
      | cons v rest =>
          have shorter : (rest.filter fun w => !w == v).length < length := by
            have bound := List.length_filter_le (fun w => !w == v) rest
            rw [List.length_cons] at count
            omega
          rw [List.eraseDups_cons, List.nodup_cons, List.mem_eraseDups, List.mem_filter]
          refine ⟨?_, ih _ shorter _ rfl⟩
          rintro ⟨_, differs⟩
          simp at differs

theorem readsOf_nodup (entry : InsnId × Insn) : (readsOf entry).Nodup := by
  unfold readsOf
  split
  · exact List.nodup_nil
  · exact (nodup_eraseDups entry.2.usedVars).map fun _ _ same => (Prod.mk.inj same).2

theorem fst_of_mem_readsOf {entry : InsnId × Insn} {r : InsnId} {v : VarId}
    (member : (r, v) ∈ readsOf entry) : r = entry.1 := by
  unfold readsOf at member
  split at member
  · cases member
  · obtain ⟨_, _, same⟩ := List.mem_map.mp member
    exact (Prod.mk.inj same).1.symm

theorem Body.reads_nodup (s : Body) : s.reads.Nodup := by
  have distinct := s.allCode_nodup
  rw [List.Nodup, List.pairwise_map] at distinct
  refine List.nodup_flatMap.mpr ⟨fun entry _ => readsOf_nodup entry, distinct.imp ?_⟩
  intro first second differ
  rintro ⟨r, v⟩ here there
  exact differ ((fst_of_mem_readsOf here).symm.trans (fst_of_mem_readsOf there))

namespace Effects

variable {e : Effects}

theorem mem_staleReads_iff {code : Code} {fact : IdSet} {r : InsnId} {v : VarId} :
    (r, v) ∈ e.staleReads code fact ↔ ∃ above insn rest, code = above ++ (r, insn) :: rest ∧
      insn.isFrameInsn = false ∧ v ∈ insn.usedVars ∧ v ∈ e.loadProblem.after above fact := by
  induction code generalizing fact with
  | nil => simp [staleReads]
  | cons entry below ih =>
      obtain ⟨i, head⟩ := entry
      rw [staleReads, List.mem_append, ih]
      constructor
      · rintro (here | ⟨above, insn, rest, rfl, plain, used, stale⟩)
        · obtain ⟨w, due, same⟩ := List.mem_map.mp here
          cases same
          split at due
          · cases due
          · next plain =>
              rw [firstStale_eq_filter, List.mem_filter, List.mem_eraseDups] at due
              exact ⟨[], head, below, rfl, Bool.not_eq_true _ ▸ plain, due.1,
                of_decide_eq_true due.2⟩
        · exact ⟨(i, head) :: above, insn, rest, rfl, plain, used, stale⟩
      · rintro ⟨above, insn, rest, code, plain, used, stale⟩
        cases above with
        | nil =>
            cases code
            refine Or.inl (List.mem_map.mpr ⟨v, ?_, rfl⟩)
            rw [plain, if_neg Bool.false_ne_true, firstStale_eq_filter, List.mem_filter,
              List.mem_eraseDups]
            exact ⟨used, decide_eq_true stale⟩
        | cons first above =>
            obtain ⟨rfl, rfl⟩ := List.cons.inj code
            exact Or.inr ⟨above, insn, rest, rfl, plain, used, stale⟩

theorem staleReads_sublist (code : Code) (fact : IdSet) :
    (e.staleReads code fact).Sublist (code.flatMap readsOf) := by
  induction code generalizing fact with
  | nil => exact List.Sublist.refl _
  | cons entry below ih =>
      obtain ⟨i, insn⟩ := entry
      rw [staleReads, List.flatMap_cons]
      refine List.Sublist.append ?_ (ih _)
      unfold readsOf
      split
      · exact List.Sublist.refl _
      · rw [firstStale_eq_filter]
        exact List.filter_sublist.map _

theorem dueLoads_sublist (s : Body) (sol : Solution IdSet) :
    (e.dueLoads s sol).Sublist s.reads := by
  unfold dueLoads Body.reads Body.allCode
  rw [List.flatMap_assoc]
  exact List.Sublist.flatMap_right _ fun b _ => staleReads_sublist (s.code b) (sol.ins.get b)

end Effects

theorem mem_dueLoads_iff {s : Body} {captures : Captures} {entry : BlockId}
    (setup : s.checkSetup s.flowGraph = .ok entry) {r : InsnId} {v : VarId} :
    (r, v) ∈ (s.effects captures).dueLoads s
        ((s.effects captures).loadProblem.solved s s.flowGraph entry) ↔
      (s.effects captures).StaleRead s r v := by
  unfold Effects.dueLoads
  rw [List.mem_flatMap]
  constructor
  · rintro ⟨b, _, member⟩
    obtain ⟨above, insn, rest, code, plain, used, stale⟩ := Effects.mem_staleReads_iff.mp member
    exact ⟨b, above, insn, rest, code, plain, used, (stale_iff setup code).mp stale⟩
  · rintro ⟨b, above, insn, rest, code, plain, used, stale⟩
    refine ⟨b, Body.mem_blocks_of_code code, Effects.mem_staleReads_iff.mpr ?_⟩
    exact ⟨above, insn, rest, code, plain, used, (stale_iff setup code).mpr stale⟩

end FramePlacement
