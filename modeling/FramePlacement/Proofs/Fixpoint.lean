import FramePlacement.Proofs.Iteration
import Mathlib.Algebra.BigOperators.Ring.List
/-!
# The worklist reaches a fixed point

A run of the solver keeps `Progress`, and its `potential` drops with every visit, so a limit that
covers the potential lets the queue run dry (`iterate_drained`).  With an empty queue every
reachable block satisfies its equation (`solve_settled`), and the number of visits is bounded by
the potential before the first one.

The laws of one direction enter through `Steady` alone.
-/

set_option autoImplicit false

namespace FramePlacement

namespace Problem

variable {F : Type}

def AllFacts (Fact : F → Prop) (sol : Solution F) : Prop :=
  ∀ b, Fact (sol.outs.get b) ∧ Fact (sol.excOuts.get b)

def Descended (p : Problem F) (sol later : Solution F) : Prop :=
  ∀ b, p.Below (later.outs.get b) (sol.outs.get b) ∧
    p.Below (later.excOuts.get b) (sol.excOuts.get b)

structure Settled (p : Problem F) (s : Body) (g : FlowGraph) (entry : BlockId)
    (sol : Solution F) (b : BlockId) : Prop where
  ins : sol.ins.get b = p.newIn s g entry sol b
  outs : sol.outs.get b = p.newOut s g entry sol b
  excOuts : sol.excOuts.get b = p.newExc s g entry sol b

/-- Visits compute facts, monotonically, and from the facts of the blocks they read alone. -/
structure Steady (p : Problem F) (s : Body) (g : FlowGraph) (entry : BlockId) (Fact : F → Prop) :
    Prop where
  fresh_fact : ∀ {sol}, AllFacts Fact sol → ∀ b,
    Fact (p.newOut s g entry sol b) ∧ Fact (p.newExc s g entry sol b)
  fresh_mono : ∀ {sol later}, AllFacts Fact sol → AllFacts Fact later → p.Descended sol later →
    ∀ b, p.Below (p.newOut s g entry later b) (p.newOut s g entry sol b) ∧
      p.Below (p.newExc s g entry later b) (p.newExc s g entry sol b)
  fresh_local : ∀ {sol later : Solution F} {b : BlockId},
    (∀ c, b ∈ p.readers g c → later.outs.get c = sol.outs.get c ∧
      later.excOuts.get c = sol.excOuts.get c) →
    p.newIn s g entry later b = p.newIn s g entry sol b ∧
      p.newOut s g entry later b = p.newOut s g entry sol b ∧
      p.newExc s g entry later b = p.newExc s g entry sol b
  readers_listed : ∀ b ∈ g.reversePostOrder, ∀ c ∈ p.readers g b, c ∈ g.reversePostOrder
  readers_few : (g.reversePostOrder.map fun b => (p.readers g b).size).sum ≤ g.edgeCount

structure Progress (p : Problem F) (s : Body) (g : FlowGraph) (entry : BlockId) (Fact : F → Prop)
    (sol : Solution F) : Prop where
  facts : AllFacts Fact sol
  quiet : p.Quiet sol
  waiting : ∀ b ∈ sol.queue, b ∈ g.reversePostOrder
  descending : ∀ b, p.Below (p.newOut s g entry sol b) (sol.outs.get b) ∧
    p.Below (p.newExc s g entry sol b) (sol.excOuts.get b)
  settled : ∀ b ∈ g.reversePostOrder, b ∈ sol.queue ∨ p.Settled s g entry sol b

/-- How far the facts of a block can descend, each step weighted by the readers it wakes. -/
def spare (p : Problem F) (g : FlowGraph) (rank : F → Nat) (sol : Solution F) (b : BlockId) : Nat :=
  (rank (sol.outs.get b) + rank (sol.excOuts.get b)) * (p.readers g b).size

def potential (p : Problem F) (g : FlowGraph) (rank : F → Nat) (sol : Solution F) : Nat :=
  sol.queue.length + (g.reversePostOrder.map (p.spare g rank sol)).sum

section Start

variable {p : Problem F} {s : Body} {g : FlowGraph} {entry : BlockId} {Fact : F → Prop}
  {rank : F → Nat}

theorem mem_seed_iff {b : BlockId} : b ∈ p.seed g ↔ b ∈ g.reversePostOrder := by
  unfold seed
  cases p.direction with
  | forward => exact Iff.rfl
  | backward => exact List.mem_reverse

theorem length_seed : (p.seed g).length = g.reversePostOrder.length := by
  unfold seed
  cases p.direction with
  | forward => rfl
  | backward => exact List.length_reverse

theorem Progress.start (order : p.Semilattice Fact rank) (steady : p.Steady s g entry Fact) :
    p.Progress s g entry Fact (p.start g) := by
  have facts : AllFacts Fact (p.start g) := fun b => ⟨order.initial_fact, order.initial_fact⟩
  refine ⟨facts, fun _ _ => rfl, fun b waits => mem_seed_iff.mp waits, ?_,
    fun b listed => Or.inl (mem_seed_iff.mpr listed)⟩
  intro b
  have fresh := steady.fresh_fact facts b
  exact ⟨order.meet_initial fresh.1, order.meet_initial fresh.2⟩

theorem potential_start_le (order : p.Semilattice Fact rank) :
    p.potential g rank (p.start g) ≤ g.reversePostOrder.length +
      2 * p.height * (g.reversePostOrder.map fun b => (p.readers g b).size).sum := by
  have each : ∀ b, p.spare g rank (p.start g) b ≤ 2 * p.height * (p.readers g b).size := by
    intro b
    have top := order.rank_le order.initial_fact
    refine Nat.mul_le_mul_right _ ?_
    change rank p.initial + rank p.initial ≤ 2 * p.height
    omega
  have sums := List.sum_le_sum (l := g.reversePostOrder) fun b _ => each b
  rw [List.sum_map_mul_left] at sums
  unfold potential
  have queue : (p.start g).queue.length = g.reversePostOrder.length := length_seed
  omega

theorem potential_start_le_visitLimit (order : p.Semilattice Fact rank)
    (steady : p.Steady s g entry Fact) :
    p.potential g rank (p.start g) ≤ p.visitLimit g := by
  have bound := potential_start_le (g := g) order
  have blocks := g.length_reversePostOrder_le
  have edges := Nat.mul_le_mul_left (2 * p.height) steady.readers_few
  unfold visitLimit
  rw [Nat.add_mul, Nat.one_mul, Nat.mul_add, Nat.mul_one]
  omega

end Start

section Run

variable [DecidableEq F] {p : Problem F} {s : Body} {g : FlowGraph} {entry : BlockId}
  {Fact : F → Prop} {rank : F → Nat} {sol : Solution F} {b : BlockId} {rest : List BlockId}

def advance (p : Problem F) (s : Body) (g : FlowGraph) (entry : BlockId) (sol : Solution F)
    (b : BlockId) (rest : List BlockId) : Solution F :=
  p.visit s g entry { sol with queue := rest, trace := b :: sol.trace } b

theorem ins_advance (c : BlockId) : (p.advance s g entry sol b rest).ins.get c =
    if c = b then p.newIn s g entry sol b else sol.ins.get c := ins_visit b c

theorem outs_advance (c : BlockId) : (p.advance s g entry sol b rest).outs.get c =
    if c = b then p.newOut s g entry sol b else sol.outs.get c := outs_visit b c

theorem excOuts_advance (quiet : p.Quiet sol) (c : BlockId) :
    (p.advance s g entry sol b rest).excOuts.get c =
      if c = b then p.newExc s g entry sol b else sol.excOuts.get c := by
  have waiting : p.Quiet { sol with queue := rest, trace := b :: sol.trace } := quiet
  exact excOuts_visit waiting b c

def Unchanged (p : Problem F) (s : Body) (g : FlowGraph) (entry : BlockId) (sol : Solution F)
    (b : BlockId) : Prop :=
  sol.outs.get b = p.newOut s g entry sol b ∧ sol.excOuts.get b = p.newExc s g entry sol b

theorem queue_advance_of_unchanged (quiet : p.Quiet sol) (same : p.Unchanged s g entry sol b) :
    (p.advance s g entry sol b rest).queue = rest := by
  have waiting : p.Quiet { sol with queue := rest, trace := b :: sol.trace } := quiet
  exact (queue_visit waiting b).trans (if_pos same)

theorem queue_advance_of_changed (quiet : p.Quiet sol) (changed : ¬ p.Unchanged s g entry sol b) :
    (p.advance s g entry sol b rest).queue =
      (({ sol with queue := rest } : Solution F).enqueueAll (p.readers g b)).queue := by
  have waiting : p.Quiet { sol with queue := rest, trace := b :: sol.trace } := quiet
  exact (queue_visit waiting b).trans (if_neg changed)

theorem rest_subset_queue_advance (quiet : p.Quiet sol) {c : BlockId} (waits : c ∈ rest) :
    c ∈ (p.advance s g entry sol b rest).queue := by
  by_cases same : p.Unchanged s g entry sol b
  · rw [queue_advance_of_unchanged quiet same]
    exact waits
  · rw [queue_advance_of_changed quiet same, Solution.mem_enqueueAll]
    exact Or.inl waits

/-- A property that every visit of a waiting block keeps holds after a run. -/
theorem iterate_rule {P : Solution F → Prop}
    (step : ∀ sol b rest, sol.queue = b :: rest → P sol → P (p.advance s g entry sol b rest))
    (limit : Nat) (sol : Solution F) (holds : P sol) : P (p.iterate s g entry limit sol) := by
  induction limit generalizing sol with
  | zero => exact holds
  | succ limit ih =>
      rw [iterate]
      split
      · exact holds
      · next b rest head => exact ih _ (step sol b rest head holds)

/-- A limit that covers a measure which drops with every visit lets the queue run dry. -/
theorem iterate_drained {P : Solution F → Prop} {measure : Solution F → Nat}
    (step : ∀ sol b rest, sol.queue = b :: rest → P sol → P (p.advance s g entry sol b rest))
    (drop : ∀ sol b rest, sol.queue = b :: rest → P sol →
      measure (p.advance s g entry sol b rest) < measure sol)
    (limit : Nat) (sol : Solution F) (holds : P sol) (covered : measure sol < limit + 1)
    (counts : ∀ sol, sol.queue.length ≤ measure sol) :
    (p.iterate s g entry limit sol).queue = [] := by
  induction limit generalizing sol with
  | zero =>
      have none_waits := counts sol
      exact List.eq_nil_of_length_eq_zero (by change sol.queue.length = 0; omega)
  | succ limit ih =>
      rw [iterate]
      split
      · next empty => exact empty
      · next b rest head =>
          have less := drop sol b rest head holds
          exact ih _ (step sol b rest head holds) (by change measure (p.advance ..) < _; omega)

theorem visits_advance : (p.advance s g entry sol b rest).visits = sol.visits + 1 := by
  unfold Solution.visits advance
  rw [trace_visit, List.length_cons]

theorem visits_iterate_le {P : Solution F → Prop} {measure : Solution F → Nat}
    (step : ∀ sol b rest, sol.queue = b :: rest → P sol → P (p.advance s g entry sol b rest))
    (drop : ∀ sol b rest, sol.queue = b :: rest → P sol →
      measure (p.advance s g entry sol b rest) < measure sol)
    (limit : Nat) (sol : Solution F) (holds : P sol) :
    (p.iterate s g entry limit sol).visits ≤ sol.visits + measure sol := by
  induction limit generalizing sol with
  | zero => exact Nat.le_add_right _ _
  | succ limit ih =>
      rw [iterate]
      split
      · exact Nat.le_add_right _ _
      · next b rest head =>
          have less := drop sol b rest head holds
          have later := ih _ (step sol b rest head holds)
          rw [visits_advance] at later
          change (p.iterate s g entry limit (p.advance ..)).visits ≤ _
          omega

/-! ## One visit -/

theorem Progress.facts_advance (steady : p.Steady s g entry Fact)
    (progress : p.Progress s g entry Fact sol) (b : BlockId) (rest : List BlockId) :
    AllFacts Fact (p.advance s g entry sol b rest) := by
  intro c
  rw [outs_advance, excOuts_advance progress.quiet]
  by_cases same : c = b
  · rw [if_pos same, if_pos same]
    exact steady.fresh_fact progress.facts b
  · rw [if_neg same, if_neg same]
    exact progress.facts c

theorem Progress.descended_advance (order : p.Semilattice Fact rank)
    (progress : p.Progress s g entry Fact sol) (b : BlockId) (rest : List BlockId) :
    p.Descended sol (p.advance s g entry sol b rest) := by
  intro c
  rw [outs_advance, excOuts_advance progress.quiet]
  by_cases same : c = b
  · rw [if_pos same, if_pos same]
    exact same ▸ progress.descending b
  · rw [if_neg same, if_neg same]
    exact ⟨order.below_refl (progress.facts c).1, order.below_refl (progress.facts c).2⟩

/-- After a visit a block waits, or the facts it reads are those of before. -/
theorem Progress.reads_advance (progress : p.Progress s g entry Fact sol) (b : BlockId)
    (rest : List BlockId) (c : BlockId) :
    c ∈ (p.advance s g entry sol b rest).queue ∨
      ∀ d, c ∈ p.readers g d →
        (p.advance s g entry sol b rest).outs.get d = sol.outs.get d ∧
          (p.advance s g entry sol b rest).excOuts.get d = sol.excOuts.get d := by
  have elsewhere : ∀ d, d ≠ b →
      (p.advance s g entry sol b rest).outs.get d = sol.outs.get d ∧
        (p.advance s g entry sol b rest).excOuts.get d = sol.excOuts.get d := by
    intro d other
    rw [outs_advance, excOuts_advance progress.quiet, if_neg other, if_neg other]
    exact ⟨rfl, rfl⟩
  by_cases unchanged : p.Unchanged s g entry sol b
  · refine Or.inr fun d _ => ?_
    by_cases same : d = b
    · subst same
      rw [outs_advance, excOuts_advance progress.quiet, if_pos rfl, if_pos rfl]
      exact ⟨unchanged.1.symm, unchanged.2.symm⟩
    · exact elsewhere d same
  · by_cases woken : c ∈ p.readers g b
    · rw [queue_advance_of_changed progress.quiet unchanged, Solution.mem_enqueueAll]
      exact Or.inl (Or.inr woken)
    · refine Or.inr fun d reads => elsewhere d fun same => woken (same ▸ reads)

theorem Progress.advance (order : p.Semilattice Fact rank) (steady : p.Steady s g entry Fact)
    (head : sol.queue = b :: rest) (progress : p.Progress s g entry Fact sol) :
    p.Progress s g entry Fact (p.advance s g entry sol b rest) where
  facts := progress.facts_advance steady b rest
  quiet := by
    intro direction c
    rw [excOuts_advance progress.quiet, progress.quiet direction c]
    unfold newExc
    rw [direction]
    exact ite_self _
  waiting := by
    intro c waits
    have listed : ∀ d ∈ b :: rest, d ∈ g.reversePostOrder :=
      fun d member => progress.waiting d (head ▸ member)
    by_cases unchanged : p.Unchanged s g entry sol b
    · rw [queue_advance_of_unchanged progress.quiet unchanged] at waits
      exact listed c (List.mem_cons_of_mem b waits)
    · rw [queue_advance_of_changed progress.quiet unchanged, Solution.mem_enqueueAll] at waits
      rcases waits with old | woken
      · exact listed c (List.mem_cons_of_mem b old)
      · exact steady.readers_listed b (listed b List.mem_cons_self) c woken
  descending := by
    intro c
    have now := progress.facts_advance steady b rest
    have lower := steady.fresh_mono progress.facts now (progress.descended_advance order b rest) c
    have before := steady.fresh_fact progress.facts c
    have after := steady.fresh_fact now c
    rw [outs_advance, excOuts_advance progress.quiet]
    by_cases same : c = b
    · rw [if_pos same, if_pos same]
      exact same ▸ lower
    · rw [if_neg same, if_neg same]
      have old := progress.descending c
      exact ⟨order.below_trans after.1 before.1 (progress.facts c).1 lower.1 old.1,
        order.below_trans after.2 before.2 (progress.facts c).2 lower.2 old.2⟩
  settled := by
    intro c listed
    rcases progress.reads_advance b rest c with waits | reads
    · exact Or.inl waits
    · obtain ⟨sameIn, sameOut, sameExc⟩ := steady.fresh_local reads
      by_cases same : c = b
      · subst same
        refine Or.inr ⟨?_, ?_, ?_⟩
        · rw [ins_advance, if_pos rfl, sameIn]
        · rw [outs_advance, if_pos rfl, sameOut]
        · rw [excOuts_advance progress.quiet, if_pos rfl, sameExc]
      · rcases progress.settled c listed with waits | old
        · rw [head] at waits
          exact Or.inl (rest_subset_queue_advance progress.quiet
            ((List.mem_cons.mp waits).resolve_left same))
        · refine Or.inr ⟨?_, ?_, ?_⟩
          · rw [ins_advance, if_neg same, sameIn, old.ins]
          · rw [outs_advance, if_neg same, sameOut, old.outs]
          · rw [excOuts_advance progress.quiet, if_neg same, sameExc, old.excOuts]

theorem potential_advance_lt (order : p.Semilattice Fact rank)
    (steady : p.Steady s g entry Fact) (head : sol.queue = b :: rest)
    (progress : p.Progress s g entry Fact sol) :
    p.potential g rank (p.advance s g entry sol b rest) < p.potential g rank sol := by
  have now := progress.facts_advance steady b rest
  have lower := progress.descended_advance order b rest
  have ranks : ∀ c, rank ((p.advance s g entry sol b rest).outs.get c) +
      rank ((p.advance s g entry sol b rest).excOuts.get c) ≤
      rank (sol.outs.get c) + rank (sol.excOuts.get c) := by
    intro c
    have left := order.rank_mono (now c).1 (progress.facts c).1 (lower c).1
    have right := order.rank_mono (now c).2 (progress.facts c).2 (lower c).2
    omega
  have listed : b ∈ g.reversePostOrder := progress.waiting b (head ▸ List.mem_cons_self)
  have spares : ∀ c, p.spare g rank (p.advance s g entry sol b rest) c ≤ p.spare g rank sol c :=
    fun c => Nat.mul_le_mul_right (p.readers g c).size (ranks c)
  unfold potential
  rw [head, List.length_cons]
  by_cases unchanged : p.Unchanged s g entry sol b
  · rw [queue_advance_of_unchanged progress.quiet unchanged]
    have sums := List.sum_le_sum (l := g.reversePostOrder) fun c _ => spares c
    omega
  · have queue : (p.advance s g entry sol b rest).queue.length ≤
        rest.length + (p.readers g b).size := by
      rw [queue_advance_of_changed progress.quiet unchanged]
      exact Solution.length_enqueueAll_le _ _
    -- one of the two facts of the block is another one now, so its rank is smaller
    have drop : rank ((p.advance s g entry sol b rest).outs.get b) +
        rank ((p.advance s g entry sol b rest).excOuts.get b) + 1 ≤
        rank (sol.outs.get b) + rank (sol.excOuts.get b) := by
      have left := order.rank_mono (now b).1 (progress.facts b).1 (lower b).1
      have right := order.rank_mono (now b).2 (progress.facts b).2 (lower b).2
      rcases not_and_or.mp unchanged with changed | changed
      · have strict := order.rank_lt (now b).1 (progress.facts b).1 (lower b).1 fun same => by
          rw [outs_advance, if_pos rfl] at same
          exact changed same.symm
        omega
      · have strict := order.rank_lt (now b).2 (progress.facts b).2 (lower b).2 fun same => by
          rw [excOuts_advance progress.quiet, if_pos rfl] at same
          exact changed same.symm
        omega
    have weighted : p.spare g rank (p.advance s g entry sol b rest) b + (p.readers g b).size ≤
        p.spare g rank sol b := by
      have product := Nat.mul_le_mul_right (p.readers g b).size drop
      rwa [Nat.succ_mul] at product
    have sums := sum_map_add_le spares listed weighted
    omega

/-! ## A whole run -/

def solved (p : Problem F) (s : Body) (g : FlowGraph) (entry : BlockId) : Solution F :=
  p.iterate s g entry (p.visitLimit g) (p.start g)

theorem solve_eq_solved (setup : s.checkSetup g = .ok entry) :
    p.solve s g = .ok (p.solved s g entry) := by
  unfold solve
  rw [setup]
  rfl

theorem solved_rule (order : p.Semilattice Fact rank) (steady : p.Steady s g entry Fact)
    {P : Solution F → Prop} (start : P (p.start g))
    (step : ∀ sol b rest, sol.queue = b :: rest → p.Progress s g entry Fact sol → P sol →
      P (p.advance s g entry sol b rest)) : P (p.solved s g entry) := by
  have both := iterate_rule (p := p) (s := s) (g := g)
    (P := fun sol => p.Progress s g entry Fact sol ∧ P sol)
    (fun sol b rest head holds =>
      ⟨holds.1.advance order steady head, step sol b rest head holds.1 holds.2⟩)
    (p.visitLimit g) (p.start g) ⟨Progress.start order steady, start⟩
  exact both.2

theorem Progress.solved (order : p.Semilattice Fact rank) (steady : p.Steady s g entry Fact) :
    p.Progress s g entry Fact (p.solved s g entry) :=
  solved_rule order steady (Progress.start order steady)
    fun _ _ _ head progress _ => progress.advance order steady head

theorem trace_solved (order : p.Semilattice Fact rank) (steady : p.Steady s g entry Fact) :
    ∀ b ∈ (p.solved s g entry).trace, b ∈ g.reversePostOrder := by
  refine solved_rule order steady (P := fun sol => ∀ b ∈ sol.trace, b ∈ g.reversePostOrder)
    (fun _ none => absurd none List.not_mem_nil) ?_
  intro sol b rest head progress visited c member
  have same : (p.advance s g entry sol b rest).trace = b :: sol.trace := trace_visit b
  rw [same] at member
  rcases List.mem_cons.mp member with rfl | earlier
  · exact progress.waiting c (head ▸ List.mem_cons_self)
  · exact visited c earlier

theorem queue_solved (order : p.Semilattice Fact rank) (steady : p.Steady s g entry Fact) :
    (p.solved s g entry).queue = [] :=
  iterate_drained (P := p.Progress s g entry Fact)
    (fun _ _ _ head progress => progress.advance order steady head)
    (fun _ _ _ head progress => potential_advance_lt order steady head progress)
    (p.visitLimit g) (p.start g) (Progress.start order steady)
    (Nat.lt_succ_of_le (potential_start_le_visitLimit order steady))
    (fun _ => Nat.le_add_right _ _)

theorem solved_settled (order : p.Semilattice Fact rank) (steady : p.Steady s g entry Fact)
    (reachable : g.Reachable b) : p.Settled s g entry (p.solved s g entry) b := by
  have progress := Progress.solved order steady
  have listed := FlowGraph.mem_reversePostOrder_iff.mpr reachable
  have empty := queue_solved order steady
  rcases progress.settled b listed with waits | settled
  · rw [empty] at waits
    cases waits
  · exact settled

end Run

end Problem

end FramePlacement
