import FramePlacement.Proofs.CaptureSummaries
/-!
# Closures handed out as values

A closure handed out as a value may run at any later point, so every call may run it.  The effects
of a scope notice this for the operands of the scope's own instructions, the block of a call aside,
and then expose every captured local at every call (`escapes_exposes`).

They do not look further in.  A closure that a nested closure hands out goes unnoticed in the scopes
around it: `stashing` passes a block that returns a closure writing a local of the method, and the
call after it is taken to leave that local alone (`stashing_handOut_unnoticed`).
-/

set_option autoImplicit false

namespace FramePlacement

/-- The instruction hands the closure out as a value: the closure stands in one of its operands, at
any nesting, and is not just the block that a call passes. -/
def Insn.HandsOut (c : ClosureId) : Insn → Prop
  | .call _ receiver _ args block =>
      (∃ op ∈ receiver :: args, c ∈ op.closures) ∨
        ∃ op, block = some op ∧ op.asClosure? = none ∧ c ∈ op.closures
  | insn => c ∈ insn.closures

namespace Body

def HandsOut (s : Body) (c : ClosureId) : Prop :=
  ∃ i insn, (i, insn) ∈ s.allCode ∧ insn.HandsOut c

theorem leaksBinding_iff {s : Body} : s.leaksBinding = true ↔ s.escapes = true ∨
    ∃ i insn op c, (i, insn) ∈ s.allCode ∧ op ∈ insn.valueOperands ∧ c ∈ op.closures := by
  simp only [leaksBinding, Bool.or_eq_true, List.any_eq_true, Insn.leaksClosure,
    Bool.not_eq_true', List.isEmpty_eq_false_iff_exists_mem, Prod.exists]
  refine or_congr_right ⟨?_, ?_⟩
  · rintro ⟨i, insn, inside, op, operand, c, member⟩
    exact ⟨i, insn, op, c, inside, operand, member⟩
  · rintro ⟨i, insn, op, c, inside, operand, member⟩
    exact ⟨i, insn, inside, op, operand, c, member⟩

theorem exposed_of_leaksBinding {s : Body} {captures : Captures} (leaks : s.leaksBinding = true)
    {v : VarId} {name : String} (own : s.vars.var? v = some (.named name 0)) {i : InsnId}
    {insn : Insn} (inside : (i, insn) ∈ s.allCode) (call : insn.isCall = true) :
    v ∈ (s.effects captures).observed.get i ∧ v ∈ (s.effects captures).clobbered.get i := by
  have declared : v ∈ s.vars.declared := VarTable.mem_idsWhere.mpr ⟨_, own, rfl⟩
  have candidate : v ∈ s.frameCandidates := by
    simp only [frameCandidates, leaks, if_true, IdSet.mem_insertAll, declared, true_or, or_true]
  have exposes : ∀ part, v ∈ exposed s.leaksBinding s.frameCandidates captures part insn := by
    intro part
    simpa only [exposed, leaks, if_true] using candidate
  exact ⟨mem_exposure_iff.mpr ⟨insn, inside, call, exposes _⟩,
    mem_exposure_iff.mpr ⟨insn, inside, call, exposes _⟩⟩

end Body

namespace Scope

/-- A local of a collected scope that code of the scope, or of a closure at any depth inside,
touches has an identifier in the scope. -/
theorem own_of_reaches {s : Scope} {access : Access} {name : String}
    (reaches : s.collectCaptures.Reaches access ⟨name, 0⟩) :
    ∃ v, s.collectCaptures.body.vars.var? v = some (.named name 0) := by
  have node : s.collectCaptures = .node s.collectCaptures.body s.collectCaptures.closures := by
    cases s.collectCaptures
    rfl
  rw [node] at reaches
  rcases reaches_node_iff.mp reaches with ⟨_, _, v, _, _, _, read⟩ | ⟨closure, member, inner⟩
  · exact ⟨v, read⟩
  · obtain ⟨c, found⟩ := List.getElem?_of_mem member
    exact interned_of_reaches found inner

/-- The binding of a scope escapes exactly when the scope says so or one of its own instructions
hands a closure out, other than in the block of a call.  Every local of the scope that code at any
depth inside touches is then exposed, to reads and to writes, at every call of the scope. -/
theorem escapes_exposes {root s : Scope} {path : List ClosureId}
    (found : root.collectCaptures.at? path = some s) :
    (s.effects.escapes = true ↔ s.body.escapes = true ∨
      ∃ i insn op c, (i, insn) ∈ s.body.allCode ∧ op ∈ insn.valueOperands ∧ c ∈ op.closures) ∧
    (s.effects.escapes = true → ∀ access name, s.Reaches access ⟨name, 0⟩ →
      ∃ v, s.body.vars.lookup? (.named name 0) = some v ∧
        ∀ i insn, (i, insn) ∈ s.body.allCode → insn.isCall = true →
          v ∈ s.effects.observed.get i ∧ v ∈ s.effects.clobbered.get i) := by
  rw [at?_collect, Option.map_eq_some_iff] at found
  obtain ⟨before, _, rfl⟩ := found
  refine ⟨Body.leaksBinding_iff, ?_⟩
  intro leaks access name reaches
  obtain ⟨v, own⟩ := own_of_reaches reaches
  refine ⟨v, VarTable.lookup?_eq_some_iff.mpr own, ?_⟩
  intro i insn inside call
  exact Body.exposed_of_leaksBinding leaks own inside call

end Scope

/-- A method that stores the closure of `handingOut` in a variable before it calls. -/
def keeping : Scope :=
  .node
    { name := "keeping"
      kind := .method
      layout := ({} : Layout).appendBlock 0 |>.appendInsn 0 0 |>.appendInsn 1 0 |>.appendInsn 2 0
      handlers := #[none]
      insns := #[.copy 1 (.array [.closure 0]), .call none .selfValue "puts" [.var 0] none,
        .ret .nil]
      vars := ((({} : VarTable).intern (.named "x" 0)).2.intern (.named "kept" 0)).2 } [handingOut]

theorem escapes_exposes_keeping :
    keeping.collectCaptures.at? [] = some keeping.collectCaptures ∧
      keeping.collectCaptures.effects.escapes = true ∧
      keeping.collectCaptures.Reaches .write ⟨"x", 0⟩ ∧
      ∃ v, keeping.collectCaptures.body.vars.lookup? (.named "x" 0) = some v ∧
        v ∈ keeping.collectCaptures.effects.observed.get 1 ∧
        v ∈ keeping.collectCaptures.effects.clobbered.get 1 := by
  have escapes : keeping.collectCaptures.effects.escapes = true := by decide
  have reaches : keeping.collectCaptures.Reaches .write ⟨"x", 0⟩ :=
    ⟨[0, 0], resetting, rfl, resetting_touches⟩
  have found : keeping.collectCaptures.at? [] = some keeping.collectCaptures := rfl
  obtain ⟨v, known, exposed⟩ := (Scope.escapes_exposes found).2 escapes .write "x" reaches
  have call := exposed 1 _ (List.mem_cons_of_mem _ List.mem_cons_self) rfl
  exact ⟨found, escapes, reaches, v, known, call⟩

/-- The block of `stashing` hands out a closure that writes a local of the method.  The binding of
the method is nevertheless taken not to escape, and its second call to leave the local alone. -/
theorem stashing_handOut_unnoticed :
    ∃ holder inner, stashing.collectCaptures.at? [0] = some holder ∧
      holder.closures[0]? = some inner ∧ holder.body.HandsOut 0 ∧
      inner.body.Touches .write (.named "x" 2) ∧
      stashing.collectCaptures.body.vars.lookup? (.named "x" 0) = some 0 ∧
      stashing.collectCaptures.effects.escapes = false ∧
      (∃ insn, (2, insn) ∈ stashing.collectCaptures.body.allCode ∧ insn.isCall = true) ∧
      ¬ 0 ∈ stashing.collectCaptures.effects.observed.get 2 ∧
      ¬ 0 ∈ stashing.collectCaptures.effects.clobbered.get 2 := by
  refine ⟨handingOut.collectCaptures, resetting, rfl, rfl, ?_, resetting_touches, by decide,
    by decide, ?_, by decide, by decide⟩
  · exact ⟨0, .ret (.closure 0), List.mem_cons_self, List.mem_singleton.mpr rfl⟩
  · exact ⟨_, List.mem_cons_of_mem _ (List.mem_cons_of_mem _ List.mem_cons_self), rfl⟩

end FramePlacement
