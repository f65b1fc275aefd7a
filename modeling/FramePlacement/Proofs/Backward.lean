import FramePlacement.Proofs.Path
/-!
# Backward problems

A backward visit reads what flows out of the normal successors of its block, and what flows out of
its handler.  The handler counts only where the code may raise, and there it is a successor along an
exception edge, so the blocks to look at again after a change are the predecessors along edges of
either kind.  With this the laws of a visit hold in both directions (`MonotoneOn.steady_flowGraph`).
-/

set_option autoImplicit false

namespace FramePlacement

namespace Problem

variable {F : Type} {p : Problem F} {s : Body} {g : FlowGraph} {Fact : F → Prop} {rank : F → Nat}
  {a b received lower : F} {code : Code}

/-! ## One instruction against the flow -/

theorem before_fact (order : p.Semilattice Fact rank) (mono : p.MonotoneOn s Fact)
    {one : InsnId × Insn} (inside : one ∈ s.allCode) (factR : Fact received) (fact : Fact a) :
    Fact (p.before received a one) := by
  have completed := mono.transfer_fact inside fact
  simp only [before]
  split
  · exact order.meet_fact completed (mono.raise_fact inside factR)
  · exact completed

theorem before_mono (order : p.Semilattice Fact rank) (mono : p.MonotoneOn s Fact)
    {one : InsnId × Insn} (inside : one ∈ s.allCode) (factL : Fact lower) (factR : Fact received)
    (factA : Fact a) (factB : Fact b) (handled : p.Below lower received) (below : p.Below a b) :
    p.Below (p.before lower a one) (p.before received b one) := by
  have completed := mono.transfer_mono inside factA factB below
  simp only [before]
  split
  · apply order.meet_mono (mono.transfer_fact inside factA) (mono.raise_fact inside factL)
      (mono.transfer_fact inside factB) (mono.raise_fact inside factR) completed
    exact mono.raise_mono inside factL factR handled
  · exact completed

/-! ## The code of a block against the flow -/

theorem beforeAll_cons (received : F) (one : InsnId × Insn) (rest : Code) (fact : F) :
    p.beforeAll received (one :: rest) fact =
      p.before received (p.beforeAll received rest fact) one := by
  simp only [beforeAll, List.reverse_cons, List.foldl_append, List.foldl_cons, List.foldl_nil]

theorem beforeAll_fact (order : p.Semilattice Fact rank) (mono : p.MonotoneOn s Fact)
    (inside : ∀ one ∈ code, one ∈ s.allCode) (factR : Fact received) (fact : Fact a) :
    Fact (p.beforeAll received code a) := by
  induction code with
  | nil => exact fact
  | cons one rest ih =>
      rw [beforeAll_cons]
      apply before_fact order mono (inside one List.mem_cons_self) factR
      exact ih fun other member => inside other (List.mem_cons_of_mem one member)

theorem beforeAll_mono (order : p.Semilattice Fact rank) (mono : p.MonotoneOn s Fact)
    (inside : ∀ one ∈ code, one ∈ s.allCode) (factL : Fact lower) (factR : Fact received)
    (factA : Fact a) (factB : Fact b) (handled : p.Below lower received) (below : p.Below a b) :
    p.Below (p.beforeAll lower code a) (p.beforeAll received code b) := by
  induction code with
  | nil => exact below
  | cons one rest ih =>
      have later : ∀ other ∈ rest, other ∈ s.allCode :=
        fun other member => inside other (List.mem_cons_of_mem one member)
      rw [beforeAll_cons, beforeAll_cons]
      exact before_mono order mono (inside one List.mem_cons_self) factL factR
        (beforeAll_fact order mono later factL factA) (beforeAll_fact order mono later factR factB)
        handled (ih later)

theorem beforeAll_congr (calm : ∀ one ∈ code, one.2.canRaise = false) :
    p.beforeAll lower code a = p.beforeAll received code a := by
  induction code with
  | nil => rfl
  | cons one rest ih =>
      have still := calm one List.mem_cons_self
      rw [beforeAll_cons, beforeAll_cons, ih fun other member =>
        calm other (List.mem_cons_of_mem one member)]
      simp only [before, still, Bool.false_eq_true, if_false]

/-! ## What a backward visit computes -/

theorem joinBackward_fact (order : p.Semilattice Fact rank) {sol : Solution F}
    (facts : AllFacts Fact sol) (b : BlockId) : Fact (p.joinBackward s g sol b) := by
  simp only [joinBackward]
  apply meetAll_fact order (fun c => (facts c).1)
  split
  · exact order.boundary_fact
  · exact order.initial_fact

theorem joinBackward_mono (order : p.Semilattice Fact rank) {sol later : Solution F}
    (facts : AllFacts Fact sol) (laterFacts : AllFacts Fact later)
    (descended : p.Descended sol later) (b : BlockId) :
    p.Below (p.joinBackward s g later b) (p.joinBackward s g sol b) := by
  simp only [joinBackward]
  have start : Fact (if ((g.succs b).isEmpty && !s.endsInHandledRaise b) = true then p.boundary
      else p.initial) := by
    split
    · exact order.boundary_fact
    · exact order.initial_fact
  exact meetAll_mono order (fun c => (facts c).1) (fun c => (laterFacts c).1)
    (fun c => (descended c).1) start start (order.below_refl start)

theorem joinBackward_local {b : BlockId} {sol later : Solution F}
    (same : ∀ c ∈ g.succs b, later.outs.get c = sol.outs.get c) :
    p.joinBackward s g later b = p.joinBackward s g sol b := by
  simp only [joinBackward]
  exact meetAll_congr same

theorem handlerFact_fact (order : p.Semilattice Fact rank) {sol : Solution F}
    (facts : AllFacts Fact sol) (b : BlockId) : Fact (p.handlerFact s sol b) := by
  simp only [handlerFact]
  split
  · next handler _ => exact (facts handler).1
  · exact order.boundary_fact

theorem handlerFact_mono (order : p.Semilattice Fact rank) {sol later : Solution F}
    (descended : p.Descended sol later) (b : BlockId) :
    p.Below (p.handlerFact s later b) (p.handlerFact s sol b) := by
  simp only [handlerFact]
  split
  · next handler _ => exact (descended handler).1
  · exact order.below_refl order.boundary_fact

/-- The fact before a block depends on its handler only along an exception edge. -/
theorem received_local {b : BlockId} {sol later : Solution F} {fact : F}
    (same : ∀ c ∈ s.flowGraph.excSuccs b, later.outs.get c = sol.outs.get c) :
    p.beforeAll (p.handlerFact s later b) (s.code b) fact =
      p.beforeAll (p.handlerFact s sol b) (s.code b) fact := by
  by_cases raises : s.mayRaise b = true
  · suffices equal : p.handlerFact s later b = p.handlerFact s sol b by rw [equal]
    simp only [handlerFact]
    split
    · next handler handled =>
        obtain ⟨one, member, raising⟩ := List.any_eq_true.mp raises
        obtain ⟨above, rest, code⟩ := List.append_of_mem member
        exact same handler (Body.mem_excSuccs_of_code code raising handled)
    · rfl
  · apply beforeAll_congr
    intro one member
    apply Bool.eq_false_iff.mpr
    intro raising
    exact raises (List.any_eq_true.mpr ⟨one, member, raising⟩)

/-! ## Visits in either direction -/

variable {entry : BlockId}

theorem MonotoneOn.steady_backward (mono : p.MonotoneOn s Fact) (order : p.Semilattice Fact rank)
    (direction : p.direction = .backward) (setup : s.checkSetup s.flowGraph = .ok entry) :
    p.Steady s s.flowGraph entry Fact := by
  have inside : ∀ b, ∀ other ∈ s.code b, other ∈ s.allCode :=
    fun b other => Body.mem_allCode_of_mem_code
  have newIn_eq : ∀ sol b,
      p.newIn s s.flowGraph entry sol b = p.joinBackward s s.flowGraph sol b := by
    intro sol b
    simp only [newIn, direction]
  have newOut_eq : ∀ sol b, p.newOut s s.flowGraph entry sol b =
      p.beforeAll (p.handlerFact s sol b) (s.code b) (p.joinBackward s s.flowGraph sol b) := by
    intro sol b
    simp only [newOut, direction]
  have newExc_eq : ∀ sol b, p.newExc s s.flowGraph entry sol b = p.initial := by
    intro sol b
    simp only [newExc, direction]
  have readers_eq : ∀ b, p.readers s.flowGraph b = s.flowGraph.allPreds b := by
    intro b
    simp only [readers, direction]
  refine ⟨?_, ?_, ?_, ?_, ?_⟩
  · intro sol facts b
    rw [newOut_eq, newExc_eq]
    refine ⟨?_, order.initial_fact⟩
    exact beforeAll_fact order mono (inside b) (handlerFact_fact order facts b)
      (joinBackward_fact order facts b)
  · intro sol later facts laterFacts descended b
    rw [newOut_eq, newOut_eq, newExc_eq, newExc_eq]
    refine ⟨?_, order.below_refl order.initial_fact⟩
    exact beforeAll_mono order mono (inside b) (handlerFact_fact order laterFacts b)
      (handlerFact_fact order facts b) (joinBackward_fact order laterFacts b)
      (joinBackward_fact order facts b) (handlerFact_mono order descended b)
      (joinBackward_mono order facts laterFacts descended b)
  · intro sol later b same
    have linked : ∀ c, s.flowGraph.Linked b c → later.outs.get c = sol.outs.get c := by
      intro c link
      apply (same c _).1
      rw [readers_eq]
      exact FlowGraph.mem_allPreds_iff.mpr link
    have joined : p.joinBackward s s.flowGraph later b = p.joinBackward s s.flowGraph sol b :=
      joinBackward_local fun c target => linked c (IdSet.mem_union.mpr (Or.inl target))
    rw [newIn_eq, newIn_eq, newOut_eq, newOut_eq, newExc_eq, newExc_eq, joined]
    refine ⟨rfl, ?_, rfl⟩
    exact received_local fun c target => linked c (IdSet.mem_union.mpr (Or.inr target))
  · intro b _ c reads
    rw [readers_eq] at reads
    have listed := Body.mem_blocks_of_linked (FlowGraph.mem_allPreds_iff.mp reads)
    apply FlowGraph.mem_reversePostOrder_iff.mpr
    exact (Body.checkSetup_eq_ok_iff.mp setup).2.2 c listed
  · simp only [readers_eq]
    exact s.flowGraph.sum_size_allPreds_le s.flowGraph.reversePostOrder_nodup

theorem MonotoneOn.steady_flowGraph (mono : p.MonotoneOn s Fact)
    (order : p.Semilattice Fact rank) (setup : s.checkSetup s.flowGraph = .ok entry) :
    p.Steady s s.flowGraph entry Fact := by
  cases direction : p.direction with
  | forward => exact mono.steady order direction entry
  | backward => exact mono.steady_backward order direction setup

end Problem

end FramePlacement
