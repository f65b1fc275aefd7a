import FramePlacement.Proofs.Machine
import FramePlacement.Proofs.Transfers
import FramePlacement.Proofs.Verified
/-!
# Split memories that agree with plain values

While a scope runs, the slot of a variable holds its value wherever the variable cannot be stale,
and the frame of a candidate holds it wherever the candidate cannot be unsynced
(`Effects.Agrees`).  In a scope where nothing is due (`Effects.Covers`) every operand and every
observation lies at such a point, and each way of passing an instruction keeps the agreement:
completing it, leaving it for a handler, moving a variable and following an edge.
-/

set_option autoImplicit false

namespace FramePlacement

/-- At a point of the scope, a split memory holds the values of the variables. -/
structure Effects.Agrees {V : Type} (e : Effects) (s : Body) (point : Point) (values : VarId → V)
    (m : Split V) : Prop where
  slot : ∀ v, ¬ e.MayBeStale s v point → m.slot v = values v
  frame : ∀ v ∈ e.candidates, ¬ e.MayBeUnsynced s v point → m.frame v = values v

/-- The frame instructions of the scope leave nothing due. -/
structure Effects.Covers (e : Effects) (s : Body) : Prop where
  reads : ∀ r v, ¬ e.StaleRead s r v
  stores : ∀ w v, ¬ e.DueStore s w v
  moves : e.GoodMoves s
  calls : ∀ entry ∈ s.allCode, ∀ v ∈ e.observed.get entry.1, entry.2.isCall = true
  observed : ∀ i, ∀ v ∈ e.observed.get i, v ∈ e.candidates
  leaving : ∀ v ∈ e.exitObserved, v ∈ e.candidates

theorem dueStore_of_observes {e : Effects} {s : Body} {v : VarId} {point : Point}
    (unsynced : e.MayBeUnsynced s v point) (observes : e.Observes s v point) :
    ∃ w, e.DueStore s w v := by
  obtain ⟨start, springs, leads⟩ := unsynced
  cases springs with
  | entry none _ => exact none.elim
  | @complete _ _ _ entry code writes =>
      obtain ⟨w, insn⟩ := entry
      exact ⟨w, _, _, insn, _, _, code, writes, leads, observes⟩
  | raise _ _ _ none => exact none.elim

namespace Insn

variable {insn : Insn} {v : VarId}

theorem movedVar?_of_plain (plain : insn.isFrameInsn = false) : insn.movedVar? = none := by
  cases insn with
  | storeFrame _ | loadFrame _ => cases plain
  | _ => rfl

theorem writesSlot_eq_of_plain (plain : insn.isFrameInsn = false) :
    insn.writesSlot v = (insn.result? == some v) := by
  unfold writesSlot
  rw [plain]
  rfl

end Insn

theorem Effects.syncs_of_plain {e : Effects} {v : VarId} {i : InsnId} {insn : Insn}
    (plain : insn.isFrameInsn = false) : e.syncs v i insn = (e.observed.get i).contains v := by
  unfold syncs
  rw [Insn.movedVar?_of_plain plain]

theorem Effects.leavesStale_of_frame {v : VarId} {entry : InsnId × Insn}
    (frame : entry.2.isFrameInsn = true) (other : entry.2.movedVar? ≠ some v) :
    Effects.LeavesStale v .completes entry := by
  obtain ⟨i, insn⟩ := entry
  refine ⟨?_, ?_, other⟩
  · cases insn with
    | storeFrame w => simpa [Insn.usedVars, Insn.movedVar?, eq_comm] using other
    | allocFrame | loadFrame _ => exact List.not_mem_nil
    | _ => cases frame
  · cases insn with
    | loadFrame w => exact other
    | allocFrame | storeFrame _ => simp [Insn.result?]
    | _ => cases frame

theorem Effects.staysUnsynced_of_frame {e : Effects} {v : VarId} {entry : InsnId × Insn}
    (frame : entry.2.isFrameInsn = true) (other : entry.2.movedVar? ≠ some v)
    (apart : ¬ v ∈ e.observed.get entry.1) : e.StaysUnsynced v .completes entry := by
  obtain ⟨i, insn⟩ := entry
  have contains := IdSet.contains_eq_false_iff.mpr apart
  refine ⟨?_, ?_⟩
  · unfold Insn.writesSlot
    rw [frame]
    rfl
  · unfold Effects.syncs
    cases moved : insn.movedVar? with
    | none => exact contains
    | some w =>
        rw [moved] at other
        simpa using other

structure Effects.Completes {V : Type} (e : Effects) (entry : InsnId × Insn)
    (values next : VarId → V) (m after : Split V) : Prop where
  result : ∀ v, entry.2.result? = some v → after.slot v = next v
  slot : ∀ v, entry.2.result? ≠ some v → after.slot v = m.slot v
  value : ∀ v, entry.2.result? ≠ some v → ¬ e.Outdates v .completes entry → next v = values v
  frame : ∀ v, entry.2.result? ≠ some v → m.frame v = values v → after.frame v = next v

structure Effects.Raises {V : Type} (e : Effects) (entry : InsnId × Insn)
    (values next : VarId → V) (m after : Split V) : Prop where
  slot : after.slot = m.slot
  value : ∀ v, ¬ e.Outdates v .raises entry → next v = values v
  frame : ∀ v, m.frame v = values v → after.frame v = next v

namespace Effects.Agrees

variable {V : Type} {e : Effects} {s : Body} {values next : VarId → V} {m after : Split V}

theorem initial (e : Effects) {b : BlockId} (first : s.layout.entry? = some b) (nil : V)
    (outer slots : VarId → V) : e.Agrees s ⟨b, s.code b⟩ (e.initial nil outer)
      { slot := e.initial nil slots, frame := e.initial nil outer } where
  slot v fresh := by
    have own : ¬ v ∈ e.enclosing := fun enclosing =>
      fresh ⟨_, Springs.entry enclosing first, Leads.here⟩
    change e.initial nil slots v = e.initial nil outer v
    unfold Effects.initial
    rw [if_neg own, if_neg own]
  frame _ _ _ := rfl

variable {b : BlockId} {above rest : Code} {entry : InsnId × Insn}

theorem frame_of_observes (covers : e.Covers s) {point : Point}
    (agrees : e.Agrees s point values m) {v : VarId} (candidate : v ∈ e.candidates)
    (observes : e.Observes s v point) : m.frame v = values v := by
  apply agrees.frame v candidate
  intro unsynced
  obtain ⟨w, due⟩ := dueStore_of_observes unsynced observes
  exact covers.stores w v due

section Instruction

variable (covers : e.Covers s) (code : s.code b = above ++ entry :: rest)
  (agrees : e.Agrees s ⟨b, entry :: rest⟩ values m)
include covers code agrees

theorem slot_of_use (plain : entry.2.isFrameInsn = false) {v : VarId}
    (used : v ∈ entry.2.usedVars) : m.slot v = values v := by
  apply agrees.slot v
  intro stale
  exact covers.reads entry.1 v ⟨b, above, entry.2, rest, code, plain, used, stale⟩

theorem frame_of_observed {v : VarId} (observed : v ∈ e.observed.get entry.1) :
    m.frame v = values v := by
  have call := covers.calls entry (Body.mem_allCode_of_code code) v observed
  exact agrees.frame_of_observes covers (covers.observed _ v observed)
    (Effects.Observes.call call observed)

theorem complete (plain : entry.2.isFrameInsn = false)
    (completes : e.Completes entry values next m after) :
    e.Agrees s ⟨b, rest⟩ next after where
  slot v fresh := by
    obtain ⟨kept, notStale⟩ := not_or.mp (mt (arises_behind_iff code).mpr fresh)
    by_cases result : entry.2.result? = some v
    · exact completes.result v result
    have before : m.slot v = values v := by
      by_cases used : v ∈ entry.2.usedVars
      · exact agrees.slot_of_use covers code plain used
      · have stays : Effects.LeavesStale v .completes entry := by
          refine ⟨used, result, ?_⟩
          rw [Insn.movedVar?_of_plain plain]
          simp
        exact agrees.slot v fun stale => notStale ⟨stale, stays⟩
    rw [completes.slot v result, before, completes.value v result kept]
  frame v candidate synced := by
    obtain ⟨kept, notUnsynced⟩ := not_or.mp (mt (arises_behind_iff code).mpr synced)
    have differs : entry.2.result? ≠ some v := by
      intro result
      apply kept
      change entry.2.writesSlot v = true
      rw [Insn.writesSlot_eq_of_plain plain, result]
      simp
    apply completes.frame v differs
    by_cases observed : v ∈ e.observed.get entry.1
    · exact agrees.frame_of_observed covers code observed
    · have stays : e.StaysUnsynced v .completes entry := by
        refine ⟨?_, ?_⟩
        · rw [Insn.writesSlot_eq_of_plain plain]
          simpa using differs
        · rw [Effects.syncs_of_plain plain]
          exact IdSet.contains_eq_false_iff.mpr observed
      exact agrees.frame v candidate fun unsynced => notUnsynced ⟨unsynced, stays⟩

theorem raise (plain : entry.2.isFrameInsn = false) (raises : entry.2.canRaise = true)
    {handler : BlockId} (handled : s.handler? b = some handler)
    (sends : e.Raises entry values next m after) :
    e.Agrees s ⟨handler, s.code handler⟩ next after where
  slot v fresh := by
    have target := Body.mem_excSuccs_of_code code raises handled
    have kept : ¬ e.Outdates v .raises entry := fun outdates =>
      fresh ⟨_, Springs.raise code raises target outdates, Leads.here⟩
    have before : m.slot v = values v := by
      by_cases used : v ∈ entry.2.usedVars
      · exact agrees.slot_of_use covers code plain used
      · exact agrees.slot v fun stale => fresh (stale.raise raises target used)
    rw [sends.slot, before, sends.value v kept]
  frame v candidate synced := by
    have target := Body.mem_excSuccs_of_code code raises handled
    apply sends.frame v
    by_cases observed : v ∈ e.observed.get entry.1
    · exact agrees.frame_of_observed covers code observed
    · exact agrees.frame v candidate fun unsynced =>
        synced (unsynced.raise raises target observed)

omit covers in
theorem slot_of_passed (frame : entry.2.isFrameInsn = true) {v : VarId}
    (other : entry.2.movedVar? ≠ some v) (fresh : ¬ e.MayBeStale s v ⟨b, rest⟩) :
    m.slot v = values v := by
  apply agrees.slot v
  intro stale
  exact fresh ((arises_behind_iff code).mpr
    (Or.inr ⟨stale, Effects.leavesStale_of_frame frame other⟩))

theorem frame_of_passed (frame : entry.2.isFrameInsn = true) {v : VarId}
    (other : entry.2.movedVar? ≠ some v) (candidate : v ∈ e.candidates)
    (synced : ¬ e.MayBeUnsynced s v ⟨b, rest⟩) : m.frame v = values v := by
  apply agrees.frame v candidate
  intro unsynced
  have apart : ¬ v ∈ e.observed.get entry.1 := by
    intro observed
    have call := covers.calls entry (Body.mem_allCode_of_code code) v observed
    rw [Insn.isCall_of_frame frame] at call
    cases call
  exact synced ((arises_behind_iff code).mpr
    (Or.inr ⟨unsynced, Effects.staysUnsynced_of_frame frame other apart⟩))

theorem alloc (allocates : entry.2 = .allocFrame) : e.Agrees s ⟨b, rest⟩ values m := by
  have frame : entry.2.isFrameInsn = true := by rw [allocates]; rfl
  have moves : ∀ v, entry.2.movedVar? ≠ some v := by
    intro v moved
    rw [allocates] at moved
    cases moved
  refine ⟨?_, ?_⟩
  · intro v fresh
    exact agrees.slot_of_passed code frame (moves v) fresh
  · intro v candidate synced
    exact agrees.frame_of_passed covers code frame (moves v) candidate synced

theorem store {w : VarId} (stores : entry.2 = .storeFrame w) :
    e.Agrees s ⟨b, rest⟩ values ((splitMemory V).store m w) := by
  have frame : entry.2.isFrameInsn = true := by rw [stores]; rfl
  have moved : entry.2.movedVar? = some w := by rw [stores]; rfl
  have copied : m.slot w = values w := by
    obtain ⟨i, insn⟩ := entry
    cases stores
    exact agrees.slot w (covers.moves.store code)
  refine ⟨?_, ?_⟩
  · intro v fresh
    by_cases same : w = v
    · exact same ▸ copied
    · apply agrees.slot_of_passed code frame _ fresh
      rw [moved]
      simpa using same
  · intro v candidate synced
    change Function.update m.frame w (m.slot w) v = values v
    by_cases same : w = v
    · rw [← same, Function.update_self, copied]
    · rw [Function.update_of_ne (Ne.symm same)]
      apply agrees.frame_of_passed covers code frame _ candidate synced
      rw [moved]
      simpa using same

theorem load {w : VarId} (loads : entry.2 = .loadFrame w) :
    e.Agrees s ⟨b, rest⟩ values ((splitMemory V).load m w) := by
  have frame : entry.2.isFrameInsn = true := by rw [loads]; rfl
  have moved : entry.2.movedVar? = some w := by rw [loads]; rfl
  have copied : m.frame w = values w := by
    obtain ⟨i, insn⟩ := entry
    cases loads
    have candidate := covers.moves.load (b := b) (i := i) (v := w) (by rw [code]; simp)
    exact agrees.frame_of_observes covers candidate (Effects.Observes.load candidate)
  refine ⟨?_, ?_⟩
  · intro v fresh
    change Function.update m.slot w (m.frame w) v = values v
    by_cases same : w = v
    · rw [← same, Function.update_self, copied]
    · rw [Function.update_of_ne (Ne.symm same)]
      apply agrees.slot_of_passed code frame _ fresh
      rw [moved]
      simpa using same
  · intro v candidate synced
    by_cases same : w = v
    · exact same ▸ copied
    · apply agrees.frame_of_passed covers code frame _ candidate synced
      rw [moved]
      simpa using same

end Instruction

theorem edge {c : BlockId} (agrees : e.Agrees s ⟨b, []⟩ values m)
    (target : c ∈ s.flowGraph.succs b) : e.Agrees s ⟨c, s.code c⟩ values m where
  slot v fresh := agrees.slot v fun stale => fresh (stale.edge target)
  frame v candidate synced :=
    agrees.frame v candidate fun unsynced => synced (unsynced.edge target)

end Effects.Agrees

end FramePlacement
