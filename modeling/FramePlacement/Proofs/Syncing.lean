import FramePlacement.Placement.Store
import FramePlacement.Proofs.Candidates
import FramePlacement.Proofs.Exposure
/-!
# Unsynced candidates and observations

A candidate may be unsynced at a point when some path leads there from behind a write of its slot,
and nothing on the way made its frame hold the value of the slot.  `Effects.MayBeUnsynced` says this
about paths alone, and the solved facts of the store analysis are exactly these paths
(`unsynced_iff`).

`Effects.Observes` lists the points at which the frame of a variable is looked at.
-/

set_option autoImplicit false

namespace FramePlacement

namespace Effects

/-- The slot of `v` gets a value that its frame misses. -/
def Renews (v : VarId) : Passing
  | .completes, (_, insn) => insn.writesSlot v = true
  | .raises, _ => False

/-- What is unsynced stays unsynced.  A call that writes `v` counts as a write once it completes; on
the way to a handler only nested code has run. -/
def StaysUnsynced (e : Effects) (v : VarId) : Passing
  | .completes, (i, insn) => insn.writesSlot v = false ∧ e.syncs v i insn = false
  | .raises, (i, _) => ¬ v ∈ e.observed.get i

/-- On some path to the point, the slot of `v` may have got ahead of its frame. -/
def MayBeUnsynced (e : Effects) (s : Body) (v : VarId) (point : Point) : Prop :=
  Arises s False (Renews v) (e.StaysUnsynced v) point

/-- The frame of `v` is observed at the point: an instruction about to run looks at it, or control
is about to leave the scope. -/
inductive Observes (e : Effects) (s : Body) (v : VarId) : Point → Prop where
  | load {b : BlockId} {i : InsnId} {rest : Code} :
      v ∈ e.candidates → Observes e s v ⟨b, (i, .loadFrame v) :: rest⟩
  | call {b : BlockId} {i : InsnId} {insn : Insn} {rest : Code} :
      insn.isCall = true → v ∈ e.observed.get i → Observes e s v ⟨b, (i, insn) :: rest⟩
  | leavingCall {b : BlockId} {i : InsnId} {insn : Insn} {rest : Code} :
      insn.isCall = true → s.handler? b = none → v ∈ e.exitObserved →
      Observes e s v ⟨b, (i, insn) :: rest⟩
  | ret {b : BlockId} {i : InsnId} {value : Operand} {rest : Code} :
      v ∈ e.exitObserved → Observes e s v ⟨b, (i, .ret value) :: rest⟩
  | leavingRaise {b : BlockId} {i : InsnId} {exception : Operand} {rest : Code} :
      s.handler? b = none → v ∈ e.exitObserved →
      Observes e s v ⟨b, (i, .raise exception) :: rest⟩
  | bottom {b : BlockId} :
      b ∈ s.layout.blocks → s.terminator? b = none → s.layout.nextBlock? b = none →
      v ∈ e.exitObserved → Observes e s v ⟨b, []⟩

/-- A write whose value is missing from the frame when the frame is observed. -/
def DueStore (e : Effects) (s : Body) (w : InsnId) (v : VarId) : Prop :=
  ∃ b above insn rest point, s.code b = above ++ (w, insn) :: rest ∧ insn.writesSlot v = true ∧
    Leads s (e.StaysUnsynced v) ⟨b, rest⟩ point ∧ e.Observes s v point

theorem observes_cons_iff {e : Effects} {s : Body} {v : VarId} {b : BlockId} {i : InsnId}
    {insn : Insn} {rest : Code} : e.Observes s v ⟨b, (i, insn) :: rest⟩ ↔
      v ∈ e.observation (s.handler? b).isNone i insn := by
  constructor
  · intro observes
    cases observes with
    | load candidate =>
        unfold observation
        dsimp only
        rw [if_pos (show e.isCandidate v = true from candidate)]
        simp
    | call isCall member =>
        cases insn with
        | call dst receiver method args block =>
            unfold observation
            dsimp only
            split
            · exact IdSet.mem_union.mpr (Or.inl member)
            · exact member
        | _ => cases isCall
    | leavingCall isCall unhandled member =>
        cases insn with
        | call dst receiver method args block =>
            unfold observation
            rw [unhandled]
            exact IdSet.mem_union.mpr (Or.inr member)
        | _ => cases isCall
    | ret member => exact member
    | leavingRaise unhandled member =>
        unfold observation
        rw [unhandled]
        exact member
  · intro member
    cases insn with
    | loadFrame w =>
        unfold observation at member
        dsimp only at member
        split at member
        · next candidate =>
            have same : v = w := by simpa using member
            subst same
            exact Observes.load candidate
        · exact absurd member (IdSet.not_mem_empty v)
    | call dst receiver method args block =>
        unfold observation at member
        dsimp only at member
        split at member
        · next unhandled =>
            rcases IdSet.mem_union.mp member with observed | leaving
            · exact Observes.call rfl observed
            · exact Observes.leavingCall rfl (Option.isNone_iff_eq_none.mp unhandled) leaving
        · exact Observes.call rfl member
    | ret value => exact Observes.ret member
    | raise exception =>
        unfold observation at member
        dsimp only at member
        split at member
        · next unhandled =>
            exact Observes.leavingRaise (Option.isNone_iff_eq_none.mp unhandled) member
        · exact absurd member (IdSet.not_mem_empty v)
    | receiveArg _ _ | copy _ _ | receiveException _ | jump _ | branch _ _ _ | allocFrame
    | storeFrame _ => exact absurd member (IdSet.not_mem_empty v)

theorem observes_nil_iff {e : Effects} {s : Body} {v : VarId} {b : BlockId}
    (listed : b ∈ s.layout.blocks) : e.Observes s v ⟨b, []⟩ ↔
      s.fallsOffEnd s.flowGraph b = true ∧ v ∈ e.exitObserved := by
  unfold Body.fallsOffEnd
  rw [Bool.and_eq_true, Option.isNone_iff_eq_none, IdSet.isEmpty_iff]
  simp only [Body.mem_succs_flowGraph]
  unfold Body.flowTargets
  constructor
  · intro observes
    cases observes with
    | bottom _ ends last member =>
        refine ⟨⟨?_, ends⟩, member⟩
        rw [ends, last]
        simp
  · rintro ⟨⟨none, ends⟩, member⟩
    refine Observes.bottom listed ends ?_ member
    rw [ends] at none
    cases next : s.layout.nextBlock? b with
    | none => rfl
    | some c =>
        rw [next] at none
        exact absurd ⟨listed, by simp⟩ (none c)

end Effects

section Analysis

variable {s : Body} {captures : Captures} {v : VarId}

theorem not_mem_storeTransfer {e : Effects} (candidate : v ∈ e.candidates) {entry : InsnId × Insn}
    {fact : IdSet} : ¬ v ∈ e.storeProblem.transfer entry.1 entry.2 fact ↔
      Effects.Renews v .completes entry ∨ ¬ v ∈ fact ∧ e.StaysUnsynced v .completes entry := by
  obtain ⟨i, insn⟩ := entry
  unfold Effects.storeProblem Effects.Renews Effects.StaysUnsynced Effects.syncs Insn.writesSlot
  cases moved : insn.movedVar? with
  | some w =>
      have frame : insn.isFrameInsn = true := by
        cases insn with
        | storeFrame _ | loadFrame _ => rfl
        | _ => cases moved
      dsimp only
      rw [moved]
      by_cases same : w = v
      · subst same
        simp [frame, show e.isCandidate w = true from candidate]
      · have other : ¬ v = w := fun equal => same equal.symm
        dsimp only
        split
        · simp [frame, same, other]
        · simp [frame, same]
  | none =>
      dsimp only
      rw [moved]
      dsimp only
      cases result : insn.result? with
      | none =>
          simp [IdSet.contains_eq_false_iff]
      | some dst =>
          have plain : insn.isFrameInsn = false := by
            cases insn with
            | storeFrame _ | loadFrame _ => cases moved
            | allocFrame => cases result
            | _ => rfl
          simp only [IdSet.mem_erase, IdSet.mem_union, plain, IdSet.contains_eq_false_iff]
          by_cases same : v = dst
          · simp [same]
          · have other : ¬ dst = v := fun equal => same equal.symm
            simp [same, other]

theorem storeProblem_tracks {e : Effects} (s : Body) (candidate : v ∈ e.candidates) :
    e.storeProblem.Tracks s (fun fact => ¬ v ∈ fact) (Effects.Renews v) (e.StaysUnsynced v) where
  initial := not_not_intro candidate
  meet a b := by
    change ¬ v ∈ a ∩ b ↔ _
    rw [IdSet.mem_inter, not_and_or]
  transfer _ _ _ := not_mem_storeTransfer candidate
  transferRaise entry _ a := by
    change ¬ v ∈ a ∪ e.observed.get entry.1 ↔ False ∨ _
    rw [IdSet.mem_union, not_or, false_or]
    rfl

theorem storeProblem_semilattice (s : Body) (captures : Captures) :
    (s.effects captures).storeProblem.Semilattice
      (IdSet.Among (s.effects captures).candidates) IdSet.size :=
  Problem.semilattice_inter rfl rfl (fun _ member => member) rfl

theorem storeTransfer_among {fact : IdSet} (one : InsnId × Insn)
    (among : IdSet.Among (s.effects captures).candidates fact) :
    IdSet.Among (s.effects captures).candidates
      ((s.effects captures).storeProblem.transfer one.1 one.2 fact) := by
  intro v member
  unfold Effects.storeProblem at member
  dsimp only at member
  split at member
  · next w _ =>
      split at member
      · next candidate =>
          rcases IdSet.mem_insert.mp member with rfl | old
          · exact candidate
          · exact among v old
      · exact among v member
  · have told : v ∈ fact ∪ (s.effects captures).observed.get one.1 := by
      split at member
      · exact (IdSet.mem_erase.mp member).2
      · exact member
    exact (IdSet.mem_union.mp told).elim (among v) fun seen => Body.observed_subset seen

theorem storeProblem_distributiveOn (s t : Body) (captures : Captures) :
    (s.effects captures).storeProblem.DistributiveOn t
      (IdSet.Among (s.effects captures).candidates) := by
  refine Problem.DistributiveOn.of_tracks (fun v candidate => storeProblem_tracks t candidate) ?_
    (fun amongA _ => amongA.inter) (fun one _ => storeTransfer_among one)
    fun _ _ among => among.union fun _ member => Body.observed_subset member
  intro a b amongA amongB same
  ext v
  constructor
  · exact fun member => not_imp_not.mp (same v (amongA v member)).mpr member
  · exact fun member => not_imp_not.mp (same v (amongB v member)).mp member

theorem storeProblem_monotoneOn (s : Body) (captures : Captures) :
    (s.effects captures).storeProblem.MonotoneOn s
      (IdSet.Among (s.effects captures).candidates) :=
  (storeProblem_distributiveOn s s captures).monotoneOn

/-- The solved facts of the store analysis before and after every instruction: all candidates but
those that may be unsynced there. -/
theorem unsynced_iff {entry : BlockId} (setup : s.checkSetup s.flowGraph = .ok entry)
    (candidate : v ∈ (s.effects captures).candidates) {b : BlockId} {above rest : Code}
    (code : s.code b = above ++ rest) :
    ¬ v ∈ (s.effects captures).storeProblem.after above
        (((s.effects captures).storeProblem.solved s s.flowGraph entry).ins.get b) ↔
      (s.effects captures).MayBeUnsynced s v ⟨b, rest⟩ := by
  have boundary : (¬ v ∈ (s.effects captures).storeProblem.boundary) = False :=
    eq_false (not_not_intro candidate)
  unfold Effects.MayBeUnsynced
  rw [← boundary]
  exact Problem.solved_iff_arises (storeProblem_tracks s candidate)
    (storeProblem_monotoneOn s captures) (storeProblem_semilattice s captures) rfl setup code

end Analysis

end FramePlacement
