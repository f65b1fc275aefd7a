import FramePlacement.Proofs.Meets
/-!
# The dataflow equations

An assignment gives every block three facts: what flows in, what flows out, and what flows out to
the handler.  The equations of a block relate them to the facts of its neighbours by meets, without
an order in which anything is folded (`Problem.SolvesAt`).

The solved facts satisfy the equations of every reachable block (`isSolution_solved`).  A run starts
above every assignment and no visit takes it below one that satisfies them, so no solution has a
greater fact anywhere (`IsSolution.lower_solved`).
-/

set_option autoImplicit false

namespace FramePlacement

structure BlockFacts (F : Type) where
  ins : BlockId → F
  outs : BlockId → F
  excOuts : BlockId → F

def Solution.blockFacts {F : Type} (sol : Solution F) : BlockFacts F where
  ins := sol.ins.get
  outs := sol.outs.get
  excOuts := sol.excOuts.get

namespace Problem

variable {F : Type}

def JoinsAt (p : Problem F) (s : Body) (entry : BlockId) (v : BlockFacts F) (b : BlockId) (x : F) :
    Prop :=
  b = entry ∧ x = p.boundary ∨ (∃ c ∈ s.flowGraph.preds b, x = v.outs c) ∨
    ∃ c ∈ s.flowGraph.excPreds b, x = v.excOuts c

def receivedBy (p : Problem F) (s : Body) (v : BlockFacts F) (b : BlockId) : F :=
  match s.handler? b with
  | some handler => v.outs handler
  | none => p.boundary

def ForwardAt (p : Problem F) (s : Body) (entry : BlockId) (Fact : F → Prop) (v : BlockFacts F)
    (b : BlockId) : Prop :=
  p.IsMeet Fact (p.JoinsAt s entry v b) (v.ins b) ∧
    v.outs b = p.after (s.code b) (v.ins b) ∧
    p.IsMeet Fact (fun x => (s.handler? b).isSome ∧ p.Throws (s.code b) (v.ins b) x) (v.excOuts b)

def BackwardAt (p : Problem F) (s : Body) (Fact : F → Prop) (v : BlockFacts F) (b : BlockId) :
    Prop :=
  (if (s.flowGraph.succs b).isEmpty = true ∧ s.endsInHandledRaise b = false then
      v.ins b = p.boundary
    else p.IsMeet Fact (fun x => ∃ c ∈ s.flowGraph.succs b, x = v.outs c) (v.ins b)) ∧
    v.outs b = p.beforeAll (p.receivedBy s v b) (s.code b) (v.ins b)

def SolvesAt (p : Problem F) (s : Body) (entry : BlockId) (Fact : F → Prop) (v : BlockFacts F)
    (b : BlockId) : Prop :=
  match p.direction with
  | .forward => p.ForwardAt s entry Fact v b
  | .backward => p.BackwardAt s Fact v b

/-- Facts for all blocks that satisfy the equations of the reachable ones. -/
def IsSolution (p : Problem F) (s : Body) (entry : BlockId) (Fact : F → Prop) (v : BlockFacts F) :
    Prop :=
  (∀ b, Fact (v.ins b) ∧ Fact (v.outs b) ∧ Fact (v.excOuts b)) ∧
    ∀ b, s.flowGraph.Reachable b → p.SolvesAt s entry Fact v b

def LowerAt (p : Problem F) (v w : BlockFacts F) (b : BlockId) : Prop :=
  p.Below (v.ins b) (w.ins b) ∧ p.Below (v.outs b) (w.outs b) ∧ p.Below (v.excOuts b) (w.excOuts b)

variable {p : Problem F} {s : Body} {Fact : F → Prop} {rank : F → Nat} {entry b : BlockId}
  {sol : Solution F} {x : F}

/-! ## What a visit computes is a meet -/

theorem below_joinForward_iff (order : p.Semilattice Fact rank) (facts : AllFacts Fact sol)
    (factX : Fact x) : p.Below x (p.joinForward s.flowGraph entry sol b) ↔
      ∀ y, p.JoinsAt s entry sol.blockFacts b y → p.Below x y := by
  have start : Fact (if b = entry then p.boundary else p.initial) := by
    split
    · exact order.boundary_fact
    · exact order.initial_fact
  have normal : Fact (p.meetAll sol.outs.get (s.flowGraph.preds b)
      (if b = entry then p.boundary else p.initial)) :=
    meetAll_fact order (fun c => (facts c).1) start
  simp only [joinForward]
  rw [below_meetAll_iff order (fun c => (facts c).2) normal factX,
    below_meetAll_iff order (fun c => (facts c).1) start factX]
  constructor
  · rintro ⟨⟨first, outs⟩, excOuts⟩ y (⟨rfl, rfl⟩ | ⟨c, source, rfl⟩ | ⟨c, source, rfl⟩)
    · rwa [if_pos rfl] at first
    · exact outs c source
    · exact excOuts c source
  · intro all
    refine ⟨⟨?_, ?_⟩, ?_⟩
    · split
      · next same => exact all _ (Or.inl ⟨same, rfl⟩)
      · exact order.meet_initial factX
    · exact fun c source => all _ (Or.inr (Or.inl ⟨c, source, rfl⟩))
    · exact fun c source => all _ (Or.inr (Or.inr ⟨c, source, rfl⟩))

theorem below_joinBackward_iff (order : p.Semilattice Fact rank) (facts : AllFacts Fact sol)
    (inner : ¬ ((s.flowGraph.succs b).isEmpty = true ∧ s.endsInHandledRaise b = false))
    (factX : Fact x) : p.Below x (p.joinBackward s s.flowGraph sol b) ↔
      ∀ y, (∃ c ∈ s.flowGraph.succs b, y = sol.outs.get c) → p.Below x y := by
  have stays : ¬ ((s.flowGraph.succs b).isEmpty && !s.endsInHandledRaise b) = true := by
    rwa [Bool.and_eq_true, Bool.not_eq_true']
  simp only [joinBackward, if_neg stays]
  rw [below_meetAll_iff order (fun c => (facts c).1) order.initial_fact factX]
  constructor
  · rintro ⟨_, outs⟩ y ⟨c, target, rfl⟩
    exact outs c target
  · intro all
    exact ⟨order.meet_initial factX, fun c target => all _ ⟨c, target, rfl⟩⟩

theorem joinBackward_of_leaves
    (leaves : (s.flowGraph.succs b).isEmpty = true ∧ s.endsInHandledRaise b = false) :
    p.joinBackward s s.flowGraph sol b = p.boundary := by
  have none : (s.flowGraph.succs b).toList = [] := List.isEmpty_iff.mp leaves.1
  simp only [joinBackward, meetAll, none, leaves.1, leaves.2, List.foldl_nil]
  rfl

theorem Settled.solvesAt [DecidableEq F] (order : p.Semilattice Fact rank)
    (mono : p.MonotoneOn s Fact) (facts : AllFacts Fact sol)
    (settled : p.Settled s s.flowGraph entry sol b) :
    p.SolvesAt s entry Fact sol.blockFacts b := by
  have inside : ∀ one ∈ s.code b, one ∈ s.allCode := fun one => Body.mem_allCode_of_mem_code
  cases direction : p.direction with
  | forward =>
      obtain ⟨ins, outs, excOuts⟩ := settled.solves direction
      have fact : Fact (sol.ins.get b) := by
        rw [ins]
        exact joinForward_fact order entry facts b
      simp only [SolvesAt, direction]
      refine ⟨order.isMeet_of_below_iff fact fun a factA => ?_, outs,
        order.isMeet_of_below_iff (facts b).2 fun a factA => ?_⟩
      · change p.Below a (sol.ins.get b) ↔ _
        rw [ins]
        exact below_joinForward_iff order facts factA
      · change p.Below a (sol.excOuts.get b) ↔ _
        rw [excOuts]
        have top : p.Below a p.initial := order.meet_initial factA
        split
        · next handled =>
            rw [below_raised_iff order mono inside fact order.initial_fact factA]
            simp only [top, true_and, handled]
            exact Iff.rfl
        · next unhandled =>
            simp only [top, unhandled, Bool.false_eq_true, false_and, false_implies, implies_true]
  | backward =>
      have ins := settled.ins
      have outs := settled.outs
      simp only [newIn, newOut, direction] at ins outs
      simp only [SolvesAt, direction, BackwardAt]
      refine ⟨?_, ?_⟩
      · split
        · next leaves => exact ins.trans (joinBackward_of_leaves leaves)
        · next inner =>
            have fact : Fact (sol.ins.get b) := by
              rw [ins]
              exact joinBackward_fact order facts b
            refine order.isMeet_of_below_iff fact fun a factA => ?_
            change p.Below a (sol.ins.get b) ↔ _
            rw [ins]
            exact below_joinBackward_iff order facts inner factA
      · rw [← ins] at outs
        exact outs

/-! ## The solved facts are a solution -/

theorem newIn_fact (order : p.Semilattice Fact rank) (facts : AllFacts Fact sol) (b : BlockId) :
    Fact (p.newIn s s.flowGraph entry sol b) := by
  unfold newIn
  split
  · exact joinForward_fact order entry facts b
  · exact joinBackward_fact order facts b

theorem isSolution_solved [DecidableEq F] (order : p.Semilattice Fact rank)
    (mono : p.MonotoneOn s Fact) (setup : s.checkSetup s.flowGraph = .ok entry) :
    p.IsSolution s entry Fact (p.solved s s.flowGraph entry).blockFacts := by
  have steady := mono.steady_flowGraph order setup
  have facts := (Progress.solved order steady).facts
  have ins : ∀ b, Fact ((p.solved s s.flowGraph entry).ins.get b) := by
    refine solved_rule (P := fun sol => ∀ b, Fact (sol.ins.get b)) order steady
      (fun _ => order.initial_fact) ?_
    intro sol c rest _ progress before b
    rw [ins_advance]
    split
    · exact newIn_fact order progress.facts c
    · exact before b
  exact ⟨fun b => ⟨ins b, (facts b).1, (facts b).2⟩,
    fun b reachable => (solved_settled order steady reachable).solvesAt order mono facts⟩

/-! ## No solution has a greater fact -/

section Greatest

variable {v : BlockFacts F}

/-- A visit of facts above a solution computes facts above it. -/
theorem SolvesAt.lower_visit (order : p.Semilattice Fact rank) (mono : p.MonotoneOn s Fact)
    (within : ∀ b, Fact (v.ins b) ∧ Fact (v.outs b) ∧ Fact (v.excOuts b))
    (facts : AllFacts Fact sol)
    (lower : ∀ c, p.Below (v.outs c) (sol.outs.get c) ∧ p.Below (v.excOuts c) (sol.excOuts.get c))
    (solves : p.SolvesAt s entry Fact v b) :
    p.Below (v.ins b) (p.newIn s s.flowGraph entry sol b) ∧
      p.Below (v.outs b) (p.newOut s s.flowGraph entry sol b) ∧
      p.Below (v.excOuts b) (p.newExc s s.flowGraph entry sol b) := by
  have inside : ∀ one ∈ s.code b, one ∈ s.allCode := fun one => Body.mem_allCode_of_mem_code
  have factIn := (within b).1
  cases direction : p.direction with
  | forward =>
      simp only [SolvesAt, direction] at solves
      obtain ⟨⟨_, joins, _⟩, outs, ⟨_, throws, _⟩⟩ := solves
      have factJoin := joinForward_fact (g := s.flowGraph) order entry facts b
      have joined : p.Below (v.ins b) (p.joinForward s.flowGraph entry sol b) := by
        apply (below_joinForward_iff order facts factIn).mpr
        rintro y (start | ⟨c, source, rfl⟩ | ⟨c, source, rfl⟩)
        · exact joins y (Or.inl start)
        · exact order.below_trans factIn (within c).2.1 (facts c).1
            (joins _ (Or.inr (Or.inl ⟨c, source, rfl⟩))) (lower c).1
        · exact order.below_trans factIn (within c).2.2 (facts c).2
            (joins _ (Or.inr (Or.inr ⟨c, source, rfl⟩))) (lower c).2
      simp only [newIn, newOut, newExc, direction]
      refine ⟨joined, ?_, ?_⟩
      · rw [outs]
        exact after_mono mono inside factIn factJoin joined
      · have factExc := (within b).2.2
        split
        · next handled =>
            apply (below_raised_iff order mono inside factJoin order.initial_fact factExc).mpr
            refine ⟨order.meet_initial factExc, ?_⟩
            -- the solution raises with a lower fact at the same instruction
            rintro y ⟨above, one, rest, code, raises, rfl⟩
            have before := Body.mem_allCode_of_above code
            have here : one ∈ s.allCode := Body.mem_allCode_of_code code
            have factLow := after_fact mono before factIn
            have factHigh := after_fact mono before factJoin
            apply order.below_trans factExc (mono.raise_fact here factLow)
              (mono.raise_fact here factHigh)
            · exact throws _ ⟨handled, above, one, rest, code, raises, rfl⟩
            · exact mono.raise_mono here factLow factHigh
                (after_mono mono before factIn factJoin joined)
        · exact order.meet_initial factExc
  | backward =>
      simp only [SolvesAt, direction, BackwardAt] at solves
      obtain ⟨joins, outs⟩ := solves
      have factJoin := joinBackward_fact (s := s) (g := s.flowGraph) order facts b
      have joined : p.Below (v.ins b) (p.joinBackward s s.flowGraph sol b) := by
        split at joins
        · next leaves =>
            rw [joins, joinBackward_of_leaves leaves]
            exact order.below_refl order.boundary_fact
        · next inner =>
            apply (below_joinBackward_iff order facts inner factIn).mpr
            rintro y ⟨c, target, rfl⟩
            exact order.below_trans factIn (within c).2.1 (facts c).1
              (joins.2.1 _ ⟨c, target, rfl⟩) (lower c).1
      have handled : Fact (p.receivedBy s v b) ∧
          p.Below (p.receivedBy s v b) (p.handlerFact s sol b) := by
        simp only [receivedBy, handlerFact]
        cases s.handler? b with
        | none => exact ⟨order.boundary_fact, order.below_refl order.boundary_fact⟩
        | some handler => exact ⟨(within handler).2.1, (lower handler).1⟩
      simp only [newIn, newOut, newExc, direction]
      refine ⟨joined, ?_, order.meet_initial (within b).2.2⟩
      rw [outs]
      exact beforeAll_mono order mono inside handled.1 (handlerFact_fact order facts b) factIn
        factJoin handled.2 joined

theorem IsSolution.lower_solved [DecidableEq F] (order : p.Semilattice Fact rank)
    (mono : p.MonotoneOn s Fact) (setup : s.checkSetup s.flowGraph = .ok entry)
    (solution : p.IsSolution s entry Fact v) (reachable : s.flowGraph.Reachable b) :
    p.LowerAt v (p.solved s s.flowGraph entry).blockFacts b := by
  obtain ⟨within, solves⟩ := solution
  have steady := mono.steady_flowGraph order setup
  have facts := (Progress.solved order steady).facts
  have lower : ∀ c, p.Below (v.outs c) ((p.solved s s.flowGraph entry).outs.get c) ∧
      p.Below (v.excOuts c) ((p.solved s s.flowGraph entry).excOuts.get c) := by
    refine solved_rule (P := fun sol => ∀ c, p.Below (v.outs c) (sol.outs.get c) ∧
      p.Below (v.excOuts c) (sol.excOuts.get c)) order steady ?_ ?_
    · exact fun c => ⟨order.meet_initial (within c).2.1, order.meet_initial (within c).2.2⟩
    · intro sol c rest head progress before d
      rw [outs_advance, excOuts_advance progress.quiet]
      split
      · next same =>
          subst same
          have visited : s.flowGraph.Reachable d := by
            apply FlowGraph.mem_reversePostOrder_iff.mp
            exact progress.waiting d (head ▸ List.mem_cons_self)
          exact ((solves d visited).lower_visit order mono within progress.facts before).2
      · exact before d
  have ins := ((solves b reachable).lower_visit order mono within facts lower).1
  rw [← (solved_settled order steady reachable).ins] at ins
  exact ⟨ins, lower b⟩

end Greatest

end Problem

end FramePlacement
