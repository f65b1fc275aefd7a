import FramePlacement.Proofs.BackwardWalk
import FramePlacement.Proofs.Staleness
import FramePlacement.Proofs.Weaving
/-!
# Scopes extended by frame instructions

A scope extends another one when the two have the same blocks and the code of the second remains
once the instructions with new identifiers are dropped, all of which manage frames
(`Body.Extends`).  Frame instructions neither raise nor branch nor run nested code, so the graph and
the effects of both scopes agree, and a path through the larger scope shows as a path through the
smaller one (`Body.Extends.leads`).
-/

set_option autoImplicit false

namespace FramePlacement

/-! ## Frame instructions -/

namespace Insn

variable {insn : Insn}

theorem canRaise_of_frame (frame : insn.isFrameInsn = true) : insn.canRaise = false := by
  cases insn with
  | allocFrame | storeFrame _ | loadFrame _ => rfl
  | _ => cases frame

theorem isCall_of_frame (frame : insn.isFrameInsn = true) : insn.isCall = false := by
  cases insn with
  | allocFrame | storeFrame _ | loadFrame _ => rfl
  | _ => cases frame

theorem leaksClosure_of_frame (frame : insn.isFrameInsn = true) : insn.leaksClosure = false := by
  cases insn with
  | allocFrame | storeFrame _ | loadFrame _ => rfl
  | _ => cases frame

theorem isTerminator_of_frame (frame : insn.isFrameInsn = true) : insn.isTerminator = false := by
  cases insn with
  | allocFrame | storeFrame _ | loadFrame _ => rfl
  | _ => cases frame

theorem targets_of_frame (frame : insn.isFrameInsn = true) : insn.targets = [] := by
  cases insn with
  | allocFrame | storeFrame _ | loadFrame _ => rfl
  | _ => cases frame

theorem isFrameInsn_of_moves {v : VarId} (moves : insn.movedVar? = some v) :
    insn.isFrameInsn = true := by
  cases insn with
  | storeFrame _ | loadFrame _ => rfl
  | _ => cases moves

end Insn

theorem any_filter_of_dropped {α : Type} {keep q : α → Bool} {l : List α}
    (dropped : ∀ x ∈ l, keep x = false → q x = false) : (l.filter keep).any q = l.any q := by
  induction l with
  | nil => rfl
  | cons x rest ih =>
      have tail := ih fun y member => dropped y (List.mem_cons_of_mem x member)
      cases kept : keep x with
      | true => rw [List.filter_cons_of_pos kept, List.any_cons, List.any_cons, tail]
      | false =>
          rw [List.filter_cons_of_neg (by simp [kept]), List.any_cons, tail,
            dropped x List.mem_cons_self kept, Bool.false_or]

namespace Body

def owns (s : Body) (entry : InsnId × Insn) : Bool := decide (entry.1 < s.insns.size)

/-- `t` is `s` with frame instructions under new identifiers. -/
structure Extends (s t : Body) : Prop where
  same : t = { s with layout := t.layout, insns := t.insns }
  blocks : t.layout.blocks = s.layout.blocks
  code : ∀ b, (t.code b).filter s.owns = s.code b
  fresh : ∀ b, ∀ entry ∈ t.code b, s.owns entry = false → entry.2.isFrameInsn = true
  terminator : ∀ b, t.terminator? b = s.terminator? b
  grows : s.insns.size ≤ t.insns.size

namespace Extends

variable {s t u : Body}

theorem refl (s : Body) : s.Extends s where
  same := rfl
  blocks := rfl
  code b := by
    refine List.filter_eq_self.mpr fun entry member => ?_
    exact decide_eq_true (lt_size_of_mem_code member)
  fresh b entry member foreign := by
    have own : s.owns entry = true := decide_eq_true (lt_size_of_mem_code member)
    rw [own] at foreign
    cases foreign
  terminator _ := rfl
  grows := Nat.le_refl _

theorem owns_mono (extend : s.Extends t) {entry : InsnId × Insn} (own : s.owns entry = true) :
    t.owns entry = true :=
  decide_eq_true (Nat.lt_of_lt_of_le (of_decide_eq_true own) extend.grows)

theorem trans (first : s.Extends t) (second : t.Extends u) : s.Extends u where
  same := by
    have middle := first.same
    have last := second.same
    rw [middle] at last
    exact last
  blocks := second.blocks.trans first.blocks
  code b := by
    rw [← first.code, ← second.code, List.filter_filter]
    refine List.filter_congr fun entry _ => ?_
    cases own : s.owns entry with
    | false => rfl
    | true => rw [first.owns_mono own]; rfl
  fresh b entry member foreign := by
    cases own : t.owns entry with
    | false => exact second.fresh b entry member own
    | true =>
        have inside : entry ∈ t.code b := by
          rw [← second.code]
          exact List.mem_filter.mpr ⟨member, own⟩
        exact first.fresh b entry inside foreign
  terminator b := (second.terminator b).trans (first.terminator b)
  grows := Nat.le_trans first.grows second.grows

variable (extend : s.Extends t)
include extend

theorem name : t.name = s.name := by
  rw [extend.same]

theorem vars : t.vars = s.vars := by
  rw [extend.same]

theorem captured : t.captured = s.captured := by
  rw [extend.same]

theorem handlers : t.handlers = s.handlers := by
  rw [extend.same]

theorem mem_code {b : BlockId} {entry : InsnId × Insn} (member : entry ∈ s.code b) :
    entry ∈ t.code b := by
  rw [← extend.code] at member
  exact (List.mem_filter.mp member).1

theorem mem_code_of_owns {b : BlockId} {entry : InsnId × Insn} (member : entry ∈ t.code b)
    (owned : s.owns entry = true) : entry ∈ s.code b :=
  extend.code b ▸ List.mem_filter.mpr ⟨member, owned⟩

theorem owns_eq_false_of_bare (bare : ∀ entry ∈ s.allCode, entry.2.isFrameInsn = false)
    {b : BlockId} {entry : InsnId × Insn} (member : entry ∈ t.code b)
    (frame : entry.2.isFrameInsn = true) : s.owns entry = false := by
  cases owned : s.owns entry with
  | false => rfl
  | true =>
      have old := mem_allCode_of_mem_code (extend.mem_code_of_owns member owned)
      rw [bare entry old] at frame
      cases frame

theorem handler? (b : BlockId) : t.handler? b = s.handler? b := by
  unfold Body.handler?
  rw [extend.handlers]

theorem any_code {q : Insn → Bool} (plain : ∀ insn, insn.isFrameInsn = true → q insn = false)
    (b : BlockId) :
    ((t.code b).any fun entry => q entry.2) = (s.code b).any fun entry => q entry.2 := by
  rw [← extend.code]
  symm
  exact any_filter_of_dropped fun entry member foreign =>
    plain _ (extend.fresh b entry member foreign)

theorem allCode : t.allCode.filter s.owns = s.allCode := by
  unfold Body.allCode
  rw [List.filter_flatMap, extend.blocks]
  exact List.flatMap_congr fun b _ => extend.code b

theorem flowGraph : t.flowGraph = s.flowGraph := by
  have raises : ∀ b, t.mayRaise b = s.mayRaise b :=
    extend.any_code fun _ frame => Insn.canRaise_of_frame frame
  have next : ∀ b, t.layout.nextBlock? b = s.layout.nextBlock? b := by
    intro b
    unfold Layout.nextBlock?
    rw [extend.blocks]
  have targets : ∀ b, t.flowTargets b = s.flowTargets b := by
    intro b
    unfold flowTargets
    rw [extend.terminator, next]
  have handlers : ∀ b, t.excTargets b = s.excTargets b := by
    intro b
    unfold excTargets
    rw [raises, extend.handler?]
  have leaves : ∀ b, t.leaves b = s.leaves b := by
    intro b
    unfold Body.leaves leavesAtEnd
    rw [raises, extend.handler?, extend.terminator, next]
  unfold Body.flowGraph Layout.entry?
  simp only [extend.blocks, targets, handlers, funext leaves]

theorem leaksBinding : t.leaksBinding = s.leaksBinding := by
  have escapes : t.escapes = s.escapes := by rw [extend.same]
  unfold Body.leaksBinding
  rw [escapes, ← extend.allCode, any_filter_of_dropped]
  intro entry member foreign
  obtain ⟨b, inside⟩ := mem_allCode_iff.mp member
  exact Insn.leaksClosure_of_frame (extend.fresh b entry inside foreign)

theorem filter_calls : (t.allCode.filter fun entry => entry.2.isCall) =
    s.allCode.filter fun entry => entry.2.isCall := by
  rw [← extend.allCode, List.filter_filter]
  refine List.filter_congr fun entry member => ?_
  obtain ⟨b, inside⟩ := mem_allCode_iff.mp member
  cases own : s.owns entry with
  | true => rw [Bool.and_true]
  | false => rw [Insn.isCall_of_frame (extend.fresh b entry inside own)]; rfl

/-- Frame instructions access nothing that a closure shares with its enclosing scopes. -/
theorem ownAccesses : t.ownAccesses = s.ownAccesses := by
  have outer : t.outerLocal? = s.outerLocal? := by
    funext v
    unfold outerLocal?
    rw [extend.vars]
  have accessing : (t.allCode.filter fun entry => !entry.2.isFrameInsn) =
      s.allCode.filter fun entry => !entry.2.isFrameInsn := by
    rw [← extend.allCode, List.filter_filter]
    refine List.filter_congr fun entry member => ?_
    obtain ⟨b, inside⟩ := mem_allCode_iff.mp member
    cases own : s.owns entry with
    | true => rw [Bool.and_true]
    | false => rw [extend.fresh b entry inside own]; rfl
  unfold Body.ownAccesses
  rw [accessing, outer]

theorem effects (captures : Captures) : t.effects captures = s.effects captures := by
  have candidates : t.frameCandidates = s.frameCandidates := by
    unfold frameCandidates
    rw [extend.leaksBinding, extend.captured, extend.vars]
  have exposure : ∀ part, t.exposure captures part = s.exposure captures part := by
    intro part
    unfold Body.exposure
    rw [extend.leaksBinding, candidates, extend.filter_calls]
  unfold Body.effects
  rw [extend.leaksBinding, candidates, extend.vars, exposure, exposure]

theorem checkSetup (g : FlowGraph) : t.checkSetup g = s.checkSetup g := by
  unfold Body.checkSetup Layout.entry?
  rw [extend.blocks, extend.name]

end Extends

end Body

/-! ## Paths -/

def Body.shadow (s : Body) (point : Point) : Point := ⟨point.block, point.rest.filter s.owns⟩

namespace Body.Extends

variable {s t : Body} (extend : s.Extends t) {free : Passing} {start point : Point}
include extend

theorem shadow_code (b : BlockId) : s.shadow ⟨b, t.code b⟩ = ⟨b, s.code b⟩ := by
  unfold Body.shadow
  rw [extend.code]

theorem leads (inside : ∃ above, t.code start.block = above ++ start.rest)
    (leads : Leads t free start point) : Leads s free (s.shadow start) (s.shadow point) := by
  induction leads with
  | here => exact Leads.here
  | @complete b entry rest before passes ih =>
      unfold Body.shadow at ih
      cases own : s.owns entry with
      | true =>
          rw [List.filter_cons_of_pos own] at ih
          exact ih.complete passes
      | false =>
          rw [List.filter_cons_of_neg (by simp [own])] at ih
          exact ih
  | @raise b handler entry rest before raises target passes ih =>
      obtain ⟨above, code⟩ := suffix_of_leads inside before
      have member : entry ∈ t.code b := Body.mem_code_of_split code
      have own : s.owns entry = true := by
        cases own : s.owns entry with
        | true => rfl
        | false =>
            rw [Insn.canRaise_of_frame (extend.fresh b entry member own)] at raises
            cases raises
      unfold Body.shadow at ih
      rw [List.filter_cons_of_pos own] at ih
      rw [extend.flowGraph] at target
      rw [extend.shadow_code]
      exact ih.raise raises target passes
  | @edge b c before target ih =>
      rw [extend.flowGraph] at target
      rw [extend.shadow_code]
      exact Leads.edge ih target

/-- What frame instructions do not start starts at an instruction of the smaller scope. -/
theorem springs {atEntry : Prop} {gen : Passing}
    (plain : ∀ passage entry, entry.2.isFrameInsn = true → ¬ gen passage entry)
    (springs : Springs t atEntry gen start) : Springs s atEntry gen (s.shadow start) := by
  have split : ∀ {b above rest} {entry : InsnId × Insn}, t.code b = above ++ entry :: rest →
      s.owns entry = true → s.code b = above.filter s.owns ++ entry :: rest.filter s.owns := by
    intro b above rest entry code own
    rw [← extend.code, code, List.filter_append, List.filter_cons_of_pos own]
  have own : ∀ {b above rest} {entry : InsnId × Insn}, t.code b = above ++ entry :: rest →
      ∀ passage, gen passage entry → s.owns entry = true := by
    intro b above rest entry code passage starts
    cases own : s.owns entry with
    | true => rfl
    | false =>
        have member : entry ∈ t.code b := Body.mem_code_of_split code
        exact absurd starts (plain passage entry (extend.fresh b entry member own))
  cases springs with
  | entry boundary first =>
      rw [extend.shadow_code]
      unfold Layout.entry? at first
      rw [extend.blocks] at first
      exact Springs.entry boundary first
  | complete code starts => exact Springs.complete (split code (own code _ starts)) starts
  | raise code raises target starts =>
      rw [extend.shadow_code]
      rw [extend.flowGraph] at target
      exact Springs.raise (split code (own code _ starts)) raises target starts

theorem arises {atEntry : Prop} {gen keep : Passing}
    (plain : ∀ passage entry, entry.2.isFrameInsn = true → ¬ gen passage entry)
    (arises : Arises t atEntry gen keep point) : Arises s atEntry gen keep (s.shadow point) := by
  obtain ⟨start, springs, leads⟩ := arises
  exact ⟨_, extend.springs plain springs,
    extend.leads (suffix_of_springs springs) leads⟩

end Body.Extends

end FramePlacement
