import FramePlacement.Layout.Lemmas
import FramePlacement.Proofs.Fixpoint
/-!
# Forward problems

Transfers that keep the order of the facts, as all do that commute with the meet, make every visit
of a forward problem monotone, and a visit reads only the facts of predecessors.  Such a problem is
therefore solved by the worklist (`MonotoneOn.steady`), and the solved facts of a reachable block
are the meet of what flows in from its predecessors, carried through its code
(`MonotoneOn.solves`).
-/

set_option autoImplicit false

namespace FramePlacement

theorem Body.mem_allCode_of_mem_code {s : Body} {b : BlockId} {entry : InsnId × Insn}
    (member : entry ∈ s.code b) : entry ∈ s.allCode := by
  obtain ⟨i, listed, _⟩ := List.mem_filterMap.mp member
  exact List.mem_flatMap.mpr ⟨b, Layout.mem_blocks_of_mem_insns listed, member⟩

namespace Problem

variable {F : Type}

structure MonotoneOn (p : Problem F) (s : Body) (Fact : F → Prop) : Prop where
  transfer_fact : ∀ {entry a}, entry ∈ s.allCode → Fact a → Fact (p.transfer entry.1 entry.2 a)
  transfer_mono : ∀ {entry a b}, entry ∈ s.allCode → Fact a → Fact b → p.Below a b →
    p.Below (p.transfer entry.1 entry.2 a) (p.transfer entry.1 entry.2 b)
  raise_fact : ∀ {entry a}, entry ∈ s.allCode → Fact a →
    Fact (p.transferRaise entry.1 entry.2 a)
  raise_mono : ∀ {entry a b}, entry ∈ s.allCode → Fact a → Fact b → p.Below a b →
    p.Below (p.transferRaise entry.1 entry.2 a) (p.transferRaise entry.1 entry.2 b)

structure Distributes (p : Problem F) (Fact : F → Prop) (f : F → F) : Prop where
  fact : ∀ a, Fact a → Fact (f a)
  meet : ∀ a b, Fact a → Fact b → f (p.meet a b) = p.meet (f a) (f b)

structure DistributiveOn (p : Problem F) (s : Body) (Fact : F → Prop) : Prop where
  transfer : ∀ one ∈ s.allCode, p.Distributes Fact (p.transfer one.1 one.2)
  raise : ∀ one ∈ s.allCode, p.Distributes Fact (p.transferRaise one.1 one.2)

section Distributes

variable {p : Problem F} {s : Body} {Fact : F → Prop} {f h : F → F} {a b : F}

theorem Distributes.mono (distributes : p.Distributes Fact f) (factA : Fact a) (factB : Fact b)
    (below : p.Below a b) : p.Below (f a) (f b) := by
  calc p.meet (f a) (f b) = f (p.meet a b) := (distributes.meet a b factA factB).symm
    _ = f a := congrArg f below

theorem Distributes.comp (outer : p.Distributes Fact h) (inner : p.Distributes Fact f) :
    p.Distributes Fact fun a => h (f a) where
  fact a factA := outer.fact _ (inner.fact a factA)
  meet a b factA factB := by
    rw [inner.meet a b factA factB, outer.meet _ _ (inner.fact a factA) (inner.fact b factB)]

theorem DistributiveOn.monotoneOn (dist : p.DistributiveOn s Fact) : p.MonotoneOn s Fact where
  transfer_fact inside factA := (dist.transfer _ inside).fact _ factA
  transfer_mono inside factA factB below := (dist.transfer _ inside).mono factA factB below
  raise_fact inside factA := (dist.raise _ inside).fact _ factA
  raise_mono inside factA factB below := (dist.raise _ inside).mono factA factB below

theorem DistributiveOn.after (dist : p.DistributiveOn s Fact) {code : Code}
    (inside : ∀ one ∈ code, one ∈ s.allCode) : p.Distributes Fact (p.after code) := by
  induction code with
  | nil => exact ⟨fun _ factA => factA, fun _ _ _ _ => rfl⟩
  | cons one rest ih =>
      have later := ih fun other member => inside other (List.mem_cons_of_mem one member)
      exact later.comp (dist.transfer one (inside one List.mem_cons_self))

end Distributes

section Forward

variable {p : Problem F} {s : Body} {g : FlowGraph} {Fact : F → Prop} {rank : F → Nat}
  {a b : F} {facts lower : BlockId → F} {blocks : IdSet} {code : Code}

theorem meetAll_fact (order : p.Semilattice Fact rank) (all : ∀ c, Fact (facts c)) (fact : Fact a) :
    Fact (p.meetAll facts blocks a) := by
  unfold meetAll
  induction blocks.toList generalizing a with
  | nil => exact fact
  | cons c rest ih => exact ih (order.meet_fact fact (all c))

theorem meetAll_mono (order : p.Semilattice Fact rank) (all : ∀ c, Fact (facts c))
    (allLower : ∀ c, Fact (lower c)) (below : ∀ c, p.Below (lower c) (facts c)) (factA : Fact a)
    (factB : Fact b) (start : p.Below a b) :
    p.Below (p.meetAll lower blocks a) (p.meetAll facts blocks b) := by
  unfold meetAll
  induction blocks.toList generalizing a b with
  | nil => exact start
  | cons c rest ih =>
      exact ih (order.meet_fact factA (allLower c)) (order.meet_fact factB (all c))
        (order.meet_mono factA (allLower c) factB (all c) start (below c))

theorem meetAll_congr (same : ∀ c ∈ blocks, lower c = facts c) :
    p.meetAll lower blocks a = p.meetAll facts blocks a := by
  unfold meetAll
  have each : ∀ c ∈ blocks.toList, lower c = facts c :=
    fun c member => same c (IdSet.mem_toList.mp member)
  revert each
  induction blocks.toList generalizing a with
  | nil => exact fun _ => rfl
  | cons c rest ih =>
      intro each
      rw [List.foldl_cons, List.foldl_cons, each c List.mem_cons_self]
      exact ih fun d member => each d (List.mem_cons_of_mem c member)

theorem after_fact (mono : p.MonotoneOn s Fact) (inside : ∀ entry ∈ code, entry ∈ s.allCode)
    (fact : Fact a) : Fact (p.after code a) := by
  unfold after
  induction code generalizing a with
  | nil => exact fact
  | cons entry rest ih =>
      exact ih (fun other member => inside other (List.mem_cons_of_mem entry member))
        (mono.transfer_fact (inside entry List.mem_cons_self) fact)

theorem after_mono (mono : p.MonotoneOn s Fact) (inside : ∀ entry ∈ code, entry ∈ s.allCode)
    (factA : Fact a) (factB : Fact b) (below : p.Below a b) :
    p.Below (p.after code a) (p.after code b) := by
  unfold after
  induction code generalizing a b with
  | nil => exact below
  | cons entry rest ih =>
      have here := inside entry List.mem_cons_self
      exact ih (fun other member => inside other (List.mem_cons_of_mem entry member))
        (mono.transfer_fact here factA) (mono.transfer_fact here factB)
        (mono.transfer_mono here factA factB below)

theorem raised_fact (order : p.Semilattice Fact rank) (mono : p.MonotoneOn s Fact)
    (inside : ∀ entry ∈ code, entry ∈ s.allCode) {acc : F} (fact : Fact a) (factAcc : Fact acc) :
    Fact (p.raised code a acc) := by
  induction code generalizing a acc with
  | nil => exact factAcc
  | cons entry rest ih =>
      have here := inside entry List.mem_cons_self
      refine ih (fun other member => inside other (List.mem_cons_of_mem entry member))
        (mono.transfer_fact here fact) ?_
      split
      · exact order.meet_fact factAcc (mono.raise_fact here fact)
      · exact factAcc

theorem raised_mono (order : p.Semilattice Fact rank) (mono : p.MonotoneOn s Fact)
    (inside : ∀ entry ∈ code, entry ∈ s.allCode) {acc top : F} (factA : Fact a) (factB : Fact b)
    (factAcc : Fact acc) (factTop : Fact top) (below : p.Below a b) (start : p.Below acc top) :
    p.Below (p.raised code a acc) (p.raised code b top) := by
  induction code generalizing a b acc top with
  | nil => exact start
  | cons entry rest ih =>
      have here := inside entry List.mem_cons_self
      have raisedA := mono.raise_fact here factA
      have raisedB := mono.raise_fact here factB
      have later : ∀ other ∈ rest, other ∈ s.allCode :=
        fun other member => inside other (List.mem_cons_of_mem entry member)
      have nextA := mono.transfer_fact here factA
      have nextB := mono.transfer_fact here factB
      have nextBelow := mono.transfer_mono here factA factB below
      unfold raised
      split
      · exact ih later nextA nextB (order.meet_fact factAcc raisedA)
          (order.meet_fact factTop raisedB) nextBelow
          (order.meet_mono factAcc raisedA factTop raisedB start
            (mono.raise_mono here factA factB below))
      · exact ih later nextA nextB factAcc factTop nextBelow start

theorem joinForward_fact (order : p.Semilattice Fact rank) (entry : BlockId) {sol : Solution F}
    (facts : AllFacts Fact sol) (b : BlockId) : Fact (p.joinForward g entry sol b) := by
  unfold joinForward
  refine meetAll_fact order (fun c => (facts c).2) (meetAll_fact order (fun c => (facts c).1) ?_)
  split
  · exact order.boundary_fact
  · exact order.initial_fact

theorem joinForward_mono (order : p.Semilattice Fact rank) (entry : BlockId)
    {sol later : Solution F} (facts : AllFacts Fact sol) (laterFacts : AllFacts Fact later)
    (descended : p.Descended sol later) (b : BlockId) :
    p.Below (p.joinForward g entry later b) (p.joinForward g entry sol b) := by
  unfold joinForward
  have start : Fact (if b = entry then p.boundary else p.initial) := by
    split
    · exact order.boundary_fact
    · exact order.initial_fact
  refine meetAll_mono order (fun c => (facts c).2) (fun c => (laterFacts c).2)
    (fun c => (descended c).2) (meetAll_fact order (fun c => (laterFacts c).1) start)
    (meetAll_fact order (fun c => (facts c).1) start) ?_
  exact meetAll_mono order (fun c => (facts c).1) (fun c => (laterFacts c).1)
    (fun c => (descended c).1) start start (order.below_refl start)

theorem joinForward_local {entry b : BlockId} {sol later : Solution F}
    (same : ∀ c, b ∈ g.allSuccs c → later.outs.get c = sol.outs.get c ∧
      later.excOuts.get c = sol.excOuts.get c) :
    p.joinForward g entry later b = p.joinForward g entry sol b := by
  unfold joinForward
  dsimp only
  rw [meetAll_congr fun c member => (same c ?_).2, meetAll_congr fun c member => (same c ?_).1]
  · exact IdSet.mem_union.mpr (Or.inl (FlowGraph.mem_preds_iff.mp member))
  · exact IdSet.mem_union.mpr (Or.inr (FlowGraph.mem_excPreds_iff.mp member))

theorem MonotoneOn.steady (mono : p.MonotoneOn s Fact) (order : p.Semilattice Fact rank)
    (direction : p.direction = .forward) (entry : BlockId) : p.Steady s g entry Fact := by
  have inside : ∀ b, ∀ other ∈ s.code b, other ∈ s.allCode :=
    fun b other => Body.mem_allCode_of_mem_code
  have newOut_eq : ∀ sol b,
      p.newOut s g entry sol b = p.after (s.code b) (p.joinForward g entry sol b) := by
    intro sol b
    unfold newOut
    rw [direction]
  have newExc_eq : ∀ sol b, p.newExc s g entry sol b = if (s.handler? b).isSome then
      p.raised (s.code b) (p.joinForward g entry sol b) p.initial else p.initial := by
    intro sol b
    unfold newExc
    rw [direction]
  have readers_eq : ∀ b, p.readers g b = g.allSuccs b := by
    intro b
    unfold readers
    rw [direction]
  refine ⟨?_, ?_, ?_, ?_, ?_⟩
  · intro sol facts b
    have joined := joinForward_fact (g := g) order entry facts b
    rw [newOut_eq, newExc_eq]
    refine ⟨after_fact mono (inside b) joined, ?_⟩
    split
    · exact raised_fact order mono (inside b) joined order.initial_fact
    · exact order.initial_fact
  · intro sol later facts laterFacts descended b
    have joined := joinForward_fact (g := g) order entry facts b
    have laterJoined := joinForward_fact (g := g) order entry laterFacts b
    have below := joinForward_mono (g := g) order entry facts laterFacts descended b
    have top := order.below_refl order.initial_fact
    rw [newOut_eq, newOut_eq, newExc_eq, newExc_eq]
    refine ⟨after_mono mono (inside b) laterJoined joined below, ?_⟩
    split
    · exact raised_mono order mono (inside b) laterJoined joined order.initial_fact
        order.initial_fact below top
    · exact top
  · intro sol later b same
    have joined : p.joinForward g entry later b = p.joinForward g entry sol b :=
      joinForward_local fun c reads => same c (readers_eq c ▸ reads)
    have ins_eq : ∀ sol, p.newIn s g entry sol b = p.joinForward g entry sol b := by
      intro sol
      unfold newIn
      rw [direction]
    rw [ins_eq, ins_eq, newOut_eq, newOut_eq, newExc_eq, newExc_eq, joined]
    exact ⟨rfl, rfl, rfl⟩
  · intro b listed c reads
    rw [readers_eq] at reads
    rw [FlowGraph.mem_reversePostOrder_iff] at listed ⊢
    exact listed.step reads
  · simp only [readers_eq]
    exact g.sum_size_allSuccs_le g.reversePostOrder_nodup

/-- The solved facts of a block: what flows in is the meet of what its predecessors send, and what
flows out is that fact carried through the code. -/
structure Solves (p : Problem F) (s : Body) (g : FlowGraph) (entry : BlockId) (sol : Solution F)
    (b : BlockId) : Prop where
  ins : sol.ins.get b = p.joinForward g entry sol b
  outs : sol.outs.get b = p.after (s.code b) (sol.ins.get b)
  excOuts : sol.excOuts.get b = if (s.handler? b).isSome then
    p.raised (s.code b) (sol.ins.get b) p.initial else p.initial

theorem Settled.solves [DecidableEq F] {entry b : BlockId} {sol : Solution F}
    (settled : p.Settled s g entry sol b) (direction : p.direction = .forward) :
    p.Solves s g entry sol b := by
  have ins := settled.ins
  have outs := settled.outs
  have excOuts := settled.excOuts
  unfold newIn at ins
  unfold newOut at outs
  unfold newExc at excOuts
  rw [direction] at ins outs excOuts
  dsimp only at ins outs excOuts
  rw [← ins] at outs excOuts
  exact ⟨ins, outs, excOuts⟩

/-- The worklist solves a forward problem with monotone transfers at every reachable block. -/
theorem MonotoneOn.solves [DecidableEq F] (mono : p.MonotoneOn s Fact)
    (order : p.Semilattice Fact rank) (direction : p.direction = .forward) {entry b : BlockId}
    (reachable : g.Reachable b) : p.Solves s g entry (p.solved s g entry) b :=
  (solved_settled order (mono.steady order direction entry) reachable).solves direction

end Forward

end Problem

end FramePlacement
