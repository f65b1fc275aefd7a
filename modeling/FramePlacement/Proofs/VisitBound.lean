import FramePlacement.Proofs.BestSolution
import FramePlacement.Proofs.Staleness
import FramePlacement.Proofs.Syncing
/-!
# How long the solver runs

The facts that leave a block only descend along a run, each of them at most as often as the height
of the problem says (`changes_le_height`).  Every block waits at the start, and after that it is
queued again only when a fact of a block before it has changed.  So a run visits every reachable
block, and the blocks, the height and the edges bound its visits (`Scope.placement_visits`).
-/

set_option autoImplicit false

namespace FramePlacement

/-! ## Sequences of facts that only descend -/

section Changes

variable {F : Type} [DecidableEq F]

def changes (facts : Nat → F) (steps : Nat) : Nat :=
  (List.range steps).countP fun n => facts (n + 1) ≠ facts n

theorem changes_succ (facts : Nat → F) (n : Nat) :
    changes facts (n + 1) = changes facts n + if facts (n + 1) ≠ facts n then 1 else 0 := by
  simp [changes, List.range_succ, List.countP_append, List.countP_singleton]

variable {p : Problem F} {Fact : F → Prop} {rank : F → Nat} {facts : Nat → F}

theorem changes_add_rank_le (order : p.Semilattice Fact rank) (within : ∀ n, Fact (facts n))
    (descends : ∀ n, p.Below (facts (n + 1)) (facts n)) (n : Nat) :
    changes facts n + rank (facts n) ≤ rank (facts 0) := by
  induction n with
  | zero => simp [changes]
  | succ n ih =>
      rw [changes_succ]
      by_cases same : facts (n + 1) = facts n
      · rw [if_neg (not_not_intro same), same]
        exact ih
      · have less := order.rank_lt (within (n + 1)) (within n) (descends n) same
        rw [if_pos same]
        omega

theorem changes_le_height (order : p.Semilattice Fact rank) (within : ∀ n, Fact (facts n))
    (descends : ∀ n, p.Below (facts (n + 1)) (facts n)) (n : Nat) :
    changes facts n ≤ p.height := by
  have spent := changes_add_rank_le order within descends n
  have top := order.rank_le (within 0)
  omega

end Changes

namespace Problem

variable {F : Type} [DecidableEq F] {p : Problem F} {s : Body} {g : FlowGraph} {entry : BlockId}
  {sol : Solution F} {Fact : F → Prop} {rank : F → Nat}

/-! ## Runs visit by visit -/

theorem iterate_of_empty (empty : sol.queue = []) (limit : Nat) :
    p.iterate s g entry limit sol = sol :=
  iterate_of_drained (Nat.zero_le limit) empty

theorem iterate_of_waiting {b : BlockId} {rest : List BlockId} (waiting : sol.queue = b :: rest)
    (limit : Nat) : p.iterate s g entry (limit + 1) sol =
      p.iterate s g entry limit (p.advance s g entry sol b rest) := by
  simp only [iterate, waiting]
  rfl

theorem iterate_add (first more : Nat) (sol : Solution F) :
    p.iterate s g entry (first + more) sol =
      p.iterate s g entry more (p.iterate s g entry first sol) := by
  induction first generalizing sol with
  | zero =>
      rw [Nat.zero_add]
      rfl
  | succ first ih =>
      rw [Nat.add_right_comm]
      cases waiting : sol.queue with
      | nil => simp only [iterate_of_empty waiting]
      | cons b rest =>
          rw [iterate_of_waiting waiting, iterate_of_waiting waiting]
          exact ih _

/-- A run counts a visit for every step before it comes to rest. -/
theorem exists_steps (limit : Nat) (sol : Solution F) : ∃ steps,
    (p.iterate s g entry limit sol).visits = sol.visits + steps ∧
      p.iterate s g entry steps sol = p.iterate s g entry limit sol := by
  induction limit generalizing sol with
  | zero => exact ⟨0, rfl, rfl⟩
  | succ limit ih =>
      cases waiting : sol.queue with
      | nil => exact ⟨0, by rw [iterate_of_empty waiting, Nat.add_zero],
          (iterate_of_empty waiting (limit + 1)).symm⟩
      | cons b rest =>
          obtain ⟨steps, count, same⟩ := ih (p.advance s g entry sol b rest)
          rw [visits_advance] at count
          refine ⟨steps + 1, ?_, ?_⟩
          · rw [iterate_of_waiting waiting, count]
            omega
          · rw [iterate_of_waiting waiting, iterate_of_waiting waiting, same]

theorem iterate_of_visits_le {limit steps : Nat}
    (drained : (p.iterate s g entry limit (p.start g)).queue = [])
    (enough : (p.iterate s g entry limit (p.start g)).visits ≤ steps) :
    p.iterate s g entry steps (p.start g) = p.iterate s g entry limit (p.start g) := by
  obtain ⟨taken, count, same⟩ := exists_steps (p := p) (s := s) (g := g) limit (p.start g)
  have none_before : (p.start g).visits = 0 := rfl
  rw [← same] at drained ⊢
  exact iterate_of_drained (by omega) drained

/-! ## Facts along a run -/

/-- The state of a run after some visits, or where it came to rest before. -/
def stateAfter (p : Problem F) (s : Body) (g : FlowGraph) (entry : BlockId) (steps : Nat) :
    Solution F :=
  p.iterate s g entry steps (p.start g)

theorem progress_stateAfter (order : p.Semilattice Fact rank) (steady : p.Steady s g entry Fact)
    (steps : Nat) : p.Progress s g entry Fact (p.stateAfter s g entry steps) :=
  iterate_rule (fun _ _ _ head progress => progress.advance order steady head) steps _
    (Progress.start order steady)

theorem descended_stateAfter (order : p.Semilattice Fact rank) (steady : p.Steady s g entry Fact)
    (steps : Nat) :
    p.Descended (p.stateAfter s g entry steps) (p.stateAfter s g entry (steps + 1)) := by
  have progress := progress_stateAfter order steady steps
  have step : p.stateAfter s g entry (steps + 1) =
      p.iterate s g entry 1 (p.stateAfter s g entry steps) := iterate_add steps 1 _
  rw [step]
  generalize p.stateAfter s g entry steps = sol at progress ⊢
  simp only [iterate]
  split
  · exact fun b => ⟨order.below_refl (progress.facts b).1, order.below_refl (progress.facts b).2⟩
  · exact progress.descended_advance order _ _

theorem changes_stateAfter_le (order : p.Semilattice Fact rank)
    (steady : p.Steady s g entry Fact) (b : BlockId) (steps : Nat) :
    changes (fun n => (p.stateAfter s g entry n).outs.get b) steps ≤ p.height ∧
      changes (fun n => (p.stateAfter s g entry n).excOuts.get b) steps ≤ p.height :=
  ⟨changes_le_height order (fun n => ((progress_stateAfter order steady n).facts b).1)
      (fun n => (descended_stateAfter order steady n b).1) steps,
    changes_le_height order (fun n => ((progress_stateAfter order steady n).facts b).2)
      (fun n => (descended_stateAfter order steady n b).2) steps⟩

/-! ## Blocks along a run -/

theorem mem_trace_solved (order : p.Semilattice Fact rank) (steady : p.Steady s g entry Fact)
    {b : BlockId} (reachable : g.Reachable b) : b ∈ (p.solved s g entry).trace := by
  have waits : ∀ c ∈ g.reversePostOrder,
      c ∈ (p.solved s g entry).queue ∨ c ∈ (p.solved s g entry).trace := by
    refine solved_rule order steady
      (P := fun sol => ∀ c ∈ g.reversePostOrder, c ∈ sol.queue ∨ c ∈ sol.trace)
      (fun c listed => Or.inl (mem_seed_iff.mpr listed)) ?_
    intro sol d rest head progress before c listed
    have trace : (p.advance s g entry sol d rest).trace = d :: sol.trace := trace_visit d
    rw [trace, List.mem_cons]
    rcases before c listed with queued | visited
    · rw [head] at queued
      rcases List.mem_cons.mp queued with here | later
      · exact Or.inr (Or.inl here)
      · exact Or.inl (rest_subset_queue_advance progress.quiet later)
    · exact Or.inr (Or.inr visited)
  refine (waits b (FlowGraph.mem_reversePostOrder_iff.mpr reachable)).resolve_left fun queued => ?_
  rw [queue_solved order steady] at queued
  cases queued

theorem visits_solved_le (order : p.Semilattice Fact rank) (steady : p.Steady s g entry Fact) :
    (p.solved s g entry).visits ≤ g.reversePostOrder.length +
      2 * p.height * (g.reversePostOrder.map fun b => (p.readers g b).size).sum := by
  have bound : (p.solved s g entry).visits ≤
      (p.start g).visits + p.potential g rank (p.start g) :=
    visits_iterate_le (fun _ _ _ head progress => progress.advance order steady head)
      (fun _ _ _ head progress => potential_advance_lt order steady head progress) _ _
      (Progress.start order steady)
  have first := potential_start_le (g := g) order
  have zero : (p.start g).visits = 0 := rfl
  omega

end Problem

/-! ## Layouts that are closed under control flow -/

namespace Body

variable {s : Body} {entry : BlockId}

/-- Where targets and handlers are in the layout, the search finds the blocks of the layout. -/
theorem blocks_perm_reversePostOrder (setup : s.checkSetup s.flowGraph = .ok entry)
    (targets : ∀ one ∈ s.allCode, ∀ dest ∈ one.2.targets, dest ∈ s.layout.blocks)
    (handlers : ∀ b ∈ s.layout.blocks, ∀ handler, s.handler? b = some handler →
      handler ∈ s.layout.blocks) :
    s.layout.blocks.Perm s.flowGraph.reversePostOrder := by
  have reached := (checkSetup_eq_ok_iff.mp setup).2.2
  refine (List.perm_ext_iff_of_nodup s.layout.blocks_nodup
    s.flowGraph.reversePostOrder_nodup).mpr fun b => ?_
  rw [FlowGraph.mem_reversePostOrder_iff]
  exact ⟨reached b, mem_blocks_of_reachable targets handlers⟩

end Body

/-! ## The placement analyses -/

theorem placement_laws (s t : Body) (captures : Captures) {p : Problem IdSet}
    (analysis : p ∈ [(s.effects captures).storeProblem, (s.effects captures).loadProblem]) :
    p.direction = .forward ∧ p.height = (s.effects captures).candidates.size ∧
      p.MonotoneOn t (IdSet.Among (s.effects captures).candidates) ∧
      ∃ rank, p.Semilattice (IdSet.Among (s.effects captures).candidates) rank := by
  simp only [List.mem_cons, List.not_mem_nil, or_false] at analysis
  rcases analysis with rfl | rfl
  · exact ⟨rfl, rfl, (storeProblem_distributiveOn s t captures).monotoneOn, _,
      storeProblem_semilattice s captures⟩
  · exact ⟨rfl, rfl, (loadProblem_distributiveOn s t captures).monotoneOn, _,
      loadProblem_semilattice s captures⟩

/-- The visits of a placement analysis are bounded.  Where branch targets and handlers are in the
layout, the run comes to rest after a number of visits that is at least the number of blocks, since
every block is visited, and exceeds it by at most two for every candidate and every successor of a
block.  The two facts that leave a block only descend, and each changes at most once for every
candidate. -/
theorem Scope.placement_visits (s other : Scope) {entry : BlockId}
    (setup : s.body.checkSetup s.body.flowGraph = .ok entry)
    (targets : ∀ one ∈ s.body.allCode, ∀ dest ∈ one.2.targets, dest ∈ s.body.layout.blocks)
    (handlers : ∀ b ∈ s.body.layout.blocks, ∀ handler, s.body.handler? b = some handler →
      handler ∈ s.body.layout.blocks)
    {p : Problem IdSet} (analysis : p ∈ [other.effects.storeProblem, other.effects.loadProblem]) :
    ∃ sol, p.solve s.body s.body.flowGraph = .ok sol ∧ sol.queue = [] ∧
      (∀ steps, sol.visits ≤ steps → p.stateAfter s.body s.body.flowGraph entry steps = sol) ∧
      (∀ b ∈ s.body.layout.blocks, b ∈ sol.trace) ∧
      s.body.layout.blocks.length ≤ sol.visits ∧
      sol.visits ≤ s.body.layout.blocks.length + 2 * other.effects.candidates.size *
        (s.body.layout.blocks.map fun b => (s.body.flowGraph.allSuccs b).size).sum ∧
      ∀ n, p.Descended (p.stateAfter s.body s.body.flowGraph entry n)
          (p.stateAfter s.body s.body.flowGraph entry (n + 1)) ∧
        ∀ b, changes (fun k => (p.stateAfter s.body s.body.flowGraph entry k).outs.get b) n ≤
            other.effects.candidates.size ∧
          changes (fun k => (p.stateAfter s.body s.body.flowGraph entry k).excOuts.get b) n ≤
            other.effects.candidates.size := by
  obtain ⟨direction, height, mono, rank, order⟩ :=
    placement_laws other.body s.body other.captures analysis
  have steady := mono.steady_flowGraph order setup
  have drained := Problem.queue_solved order steady
  have perm := Body.blocks_perm_reversePostOrder setup targets handlers
  have visited : ∀ b ∈ s.body.layout.blocks,
      b ∈ (p.solved s.body s.body.flowGraph entry).trace := fun b listed =>
    Problem.mem_trace_solved order steady ((Body.checkSetup_eq_ok_iff.mp setup).2.2 b listed)
  have readers : p.readers s.body.flowGraph = s.body.flowGraph.allSuccs := by
    funext b
    simp only [Problem.readers, direction]
  have bound := Problem.visits_solved_le order steady
  rw [height, readers, ← perm.length_eq, ← (perm.map _).sum_eq] at bound
  refine ⟨_, Problem.solve_eq_solved setup, drained,
    fun steps enough => Problem.iterate_of_visits_le drained enough, visited, ?_, bound, ?_⟩
  · exact (s.body.layout.blocks_nodup.subperm visited).length_le
  · intro n
    refine ⟨Problem.descended_stateAfter order steady n, fun b => ?_⟩
    rw [← show p.height = other.effects.candidates.size from height]
    exact Problem.changes_stateAfter_le order steady b n

theorem placement_visits_retrying :
    retrying.body.checkSetup retrying.body.flowGraph = .ok 0 ∧
      ∃ sol, retrying.effects.storeProblem.solve retrying.body retrying.body.flowGraph = .ok sol ∧
        sol.queue = [] ∧ 3 ≤ sol.visits ∧
        sol.visits ≤ 3 + 2 * retrying.effects.candidates.size * 4 := by
  have setup : retrying.body.checkSetup retrying.body.flowGraph = .ok 0 := by decide
  have handlers : ∀ b ∈ retrying.body.layout.blocks, ∀ handler,
      retrying.body.handler? b = some handler → handler ∈ retrying.body.layout.blocks := by
    intro b listed
    have all : ∀ b ∈ retrying.body.layout.blocks, ∀ handler ∈ (retrying.body.handler? b).toList,
        handler ∈ retrying.body.layout.blocks := by decide
    exact fun handler handled => all b listed handler (Option.mem_toList.mpr handled)
  obtain ⟨sol, solves, drained, _, _, least, most, _⟩ :=
    retrying.placement_visits retrying setup (by decide) handlers List.mem_cons_self
  exact ⟨setup, sol, solves, drained, least, most⟩

end FramePlacement
