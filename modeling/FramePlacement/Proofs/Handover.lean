import FramePlacement.Proofs.Escape
/-!
# Closures handed over by an instruction

An instruction hands a closure over in three ways.  As a value, and then the binding of the scope
escapes.  As the block of a call, and then the call exposes what the closure touches.  Or inside a
compound literal that a call passes as its block (`Insn.BuriesInBlock`).  The last way is noticed
neither by the search for leaks, which leaves blocks out, nor by the calls, whose block then is no
closure: as long as nothing else leaks, such a call exposes nothing (`handover_cases`).  `burying`
loses the writes of its block in this way.
-/

set_option autoImplicit false

namespace FramePlacement

def Insn.block? : Insn → Option Operand
  | .call _ _ _ _ block => block
  | _ => none

/-- The instruction is a call whose block is a compound literal around the closure. -/
def Insn.BuriesInBlock (insn : Insn) (c : ClosureId) : Prop :=
  ∃ op, insn.block? = some op ∧ op.asClosure? = none ∧ c ∈ op.closures

theorem Operand.closures_of_asClosure? {op : Operand} {c : ClosureId}
    (here : op.asClosure? = some c) : op = .closure c := by
  cases op <;> cases here
  rfl

theorem Insn.isCall_of_block? {insn : Insn} {op : Operand} (here : insn.block? = some op) :
    insn.isCall = true := by
  cases insn <;> cases here
  rfl

theorem Insn.isCall_of_blockClosure? {insn : Insn} {c : ClosureId}
    (plain : insn.blockClosure? = some c) : insn.isCall = true := by
  cases insn with
  | call => rfl
  | _ => cases plain

/-- Each closure of an instruction is handed over as a value, as the block of a call, or inside a
literal that is the block. -/
theorem Insn.closure_cases {insn : Insn} {c : ClosureId} (member : c ∈ insn.closures) :
    (∃ op ∈ insn.valueOperands, c ∈ op.closures) ∨ insn.blockClosure? = some c ∨
      insn.BuriesInBlock c := by
  obtain ⟨op, listed, inside⟩ := List.mem_flatMap.mp member
  cases insn with
  | call dst receiver method args block =>
      rcases List.mem_append.mp (show op ∈ (receiver :: args) ++ block.toList from listed) with
        value | isBlock
      · exact Or.inl ⟨op, value, inside⟩
      · have here : block = some op := Option.mem_toList.mp isBlock
        right
        cases plain : op.asClosure? with
        | none => exact Or.inr ⟨op, here, plain, inside⟩
        | some d =>
            rw [Operand.closures_of_asClosure? plain] at inside
            have same : c = d := List.mem_singleton.mp inside
            refine Or.inl ?_
            rw [same, blockClosure?, here]
            exact plain
  | _ => exact Or.inl ⟨op, listed, inside⟩

theorem Insn.not_buriesInBlock_of_blockClosure? {insn : Insn} {c d : ClosureId}
    (plain : insn.blockClosure? = some d) : ¬ insn.BuriesInBlock c := by
  rintro ⟨op, here, literal, -⟩
  cases insn <;> cases here
  rw [blockClosure?, Option.bind_some, literal] at plain
  cases plain

theorem Body.mem_exposure_of_sealed {s : Body} {captures : Captures}
    {part : CaptureSummary → IdSet} (sealed : s.leaksBinding = false) {i : InsnId} {insn : Insn}
    (inside : (i, insn) ∈ s.allCode) {v : VarId} :
    v ∈ (s.exposure captures part).get i ↔ ∃ c, insn.blockClosure? = some c ∧
      v ∈ part (captures.summary c) ∧ v ∈ s.frameCandidates := by
  rw [mem_exposure_iff]
  constructor
  · rintro ⟨other, also, _, exposes⟩
    obtain rfl : other = insn := congrArg Prod.snd
      (List.inj_on_of_nodup_map s.allCode_nodup also inside rfl)
    rw [exposed, sealed, if_neg Bool.false_ne_true] at exposes
    split at exposes
    · next c plain => exact ⟨c, plain, IdSet.mem_inter.mp exposes⟩
    · exact absurd exposes (IdSet.not_mem_empty v)
  · rintro ⟨c, plain, exposes⟩
    refine ⟨insn, inside, Insn.isCall_of_blockClosure? plain, ?_⟩
    rw [exposed, sealed, if_neg Bool.false_ne_true, plain]
    exact IdSet.mem_inter.mpr exposes

namespace Scope

theorem candidate_of_touched {s : Scope} {c : ClosureId} {v : VarId}
    (touched : v ∈ (s.collectCaptures.captures.summary c).touched) :
    v ∈ s.collectCaptures.effects.candidates := by
  rcases IdSet.mem_union.mp touched with read | written
  · exact candidate_of_mem_summary (show v ∈ CaptureSummary.part _ .read from read)
  · exact candidate_of_mem_summary (show v ∈ CaptureSummary.part _ .write from written)

/-- Every closure that an instruction of a collected scope hands over, at any nesting in any
operand, is accounted for unless it is buried in a block.  Either the binding escapes; or the
instruction is a call that passes the closure itself as its block, and all the closure touches is
observed at it and all the closure writes is clobbered by it; or the instruction is a call whose
block is a literal around the closure, and the call exposes nothing at all. -/
theorem handover_cases {root s : Scope} {path : List ClosureId}
    (found : root.collectCaptures.at? path = some s) {i : InsnId} {insn : Insn}
    (inside : (i, insn) ∈ s.body.allCode) {c : ClosureId} (member : c ∈ insn.closures) :
    s.effects.escapes = true ∨
      (insn.isCall = true ∧ insn.blockClosure? = some c ∧
        (∀ v ∈ (s.captures.summary c).touched, v ∈ s.effects.observed.get i) ∧
        ∀ v ∈ (s.captures.summary c).writes, v ∈ s.effects.clobbered.get i) ∨
      (insn.isCall = true ∧ insn.BuriesInBlock c ∧
        ∀ v, ¬ v ∈ s.effects.observed.get i ∧ ¬ v ∈ s.effects.clobbered.get i) := by
  rw [at?_collect, Option.map_eq_some_iff] at found
  obtain ⟨before, _, rfl⟩ := found
  cases leaks : before.collectCaptures.body.leaksBinding with
  | true => exact Or.inl leaks
  | false =>
      right
      rcases Insn.closure_cases member with ⟨op, value, here⟩ | plain | buried
      · -- a closure handed out as a value makes the binding leak
        have leaky := Body.leaksBinding_iff.mpr (Or.inr ⟨i, insn, op, c, inside, value, here⟩)
        rw [leaks] at leaky
        cases leaky
      · left
        refine ⟨Insn.isCall_of_blockClosure? plain, plain, ?_, ?_⟩
        · intro v touched
          exact (Body.mem_exposure_of_sealed leaks inside).mpr
            ⟨c, plain, touched, candidate_of_touched touched⟩
        · intro v written
          have touched : v ∈ (before.collectCaptures.captures.summary c).touched :=
            IdSet.mem_union.mpr (Or.inr written)
          exact (Body.mem_exposure_of_sealed leaks inside).mpr
            ⟨c, plain, written, candidate_of_touched touched⟩
      · right
        obtain ⟨op, here, -⟩ := id buried
        have nothing : ∀ (part : CaptureSummary → IdSet) (v : VarId),
            ¬ v ∈ (before.collectCaptures.body.exposure before.collectCaptures.captures part).get
              i := by
          intro part v exposed
          obtain ⟨d, plain, -⟩ := (Body.mem_exposure_of_sealed leaks inside).mp exposed
          exact Insn.not_buriesInBlock_of_blockClosure? plain buried
        exact ⟨Insn.isCall_of_block? here, buried, fun v => ⟨nothing _ v, nothing _ v⟩⟩

end Scope

/-- A closure that writes a local of the scope around it. -/
def bumping : Scope :=
  .node
    { name := "bumping"
      kind := .closure
      layout := ({} : Layout).appendBlock 0 |>.appendInsn 0 0 |>.appendInsn 1 0
      handlers := #[none]
      insns := #[.copy 0 (.int 0), .ret .nil]
      vars := (({} : VarTable).intern (.named "x" 1)).2 } []

/-- A method that passes `bumping` to one call as its block, and in a list as the block of the
next. -/
def burying : Scope :=
  .node
    { name := "burying"
      kind := .method
      layout := ({} : Layout).appendBlock 0 |>.appendInsn 0 0 |>.appendInsn 1 0 |>.appendInsn 2 0
        |>.appendInsn 3 0
      handlers := #[none]
      insns := #[.copy 0 (.int 1), .call none .selfValue "each" [] (some (.closure 0)),
        .call none .selfValue "each" [] (some (.array [.closure 0])), .ret .nil]
      vars := (({} : VarTable).intern (.named "x" 0)).2 } [bumping]

theorem handover_cases_burying :
    burying.collectCaptures.at? [] = some burying.collectCaptures ∧
      (∃ insn, (1, insn) ∈ burying.collectCaptures.body.allCode ∧ 0 ∈ insn.closures) ∧
      burying.collectCaptures.effects.escapes = false ∧
      0 ∈ burying.collectCaptures.effects.observed.get 1 ∧
      0 ∈ burying.collectCaptures.effects.clobbered.get 1 := by
  have found : burying.collectCaptures.at? [] = some burying.collectCaptures := rfl
  have sealed : burying.collectCaptures.effects.escapes = false := by decide
  have inside : (1, Insn.call none .selfValue "each" [] (some (.closure 0))) ∈
      burying.collectCaptures.body.allCode := List.mem_cons_of_mem _ List.mem_cons_self
  have member : 0 ∈ (Insn.call none .selfValue "each" [] (some (.closure 0))).closures :=
    List.mem_singleton.mpr rfl
  rcases Scope.handover_cases found inside member with escapes | ⟨_, _, seen, written⟩ | buried
  · rw [sealed] at escapes
    cases escapes
  · exact ⟨found, ⟨_, inside, member⟩, sealed, seen 0 (by decide), written 0 (by decide)⟩
  · obtain ⟨_, ⟨op, here, literal, _⟩, _⟩ := buried
    cases here
    cases literal

/-- The list that the second call of `burying` passes holds a closure that writes `x`.  The binding
does not escape, and the call is taken neither to observe nor to write `x`. -/
theorem burying_block_unnoticed :
    ∃ insn, (2, insn) ∈ burying.collectCaptures.body.allCode ∧ 0 ∈ insn.closures ∧
      0 ∈ (burying.collectCaptures.captures.summary 0).writes ∧
      burying.collectCaptures.effects.escapes = false ∧
      ¬ 0 ∈ burying.collectCaptures.effects.observed.get 2 ∧
      ¬ 0 ∈ burying.collectCaptures.effects.clobbered.get 2 :=
  ⟨_, List.mem_cons_of_mem _ (List.mem_cons_of_mem _ List.mem_cons_self),
    List.mem_singleton.mpr rfl, by decide, by decide, by decide, by decide⟩

end FramePlacement
