import FramePlacement.Proofs.Reuse
import FramePlacement.Proofs.Staleness
/-!
# The placements are exact

Stores follow exactly the writes from which a path leads to an observation that the slot would
miss, and loads precede exactly the reads of variables that may be stale.  Neither placement is cut
short by its bound on steps.  A placer finds the same marks with whatever its memory still holds,
although its search looks at a point only once for a variable: `Finds` says that it succeeds with
these marks and counts the same visits.
-/

set_option autoImplicit false

namespace FramePlacement

theorem Finds.of_ok {visits : Nat} {found : Except SetupError (List Mark)} {placement : Placement}
    (finds : Finds visits found (.ok placement)) :
    found = .ok placement.marks ∧ visits = placement.visits := by
  cases finds
  exact ⟨rfl, rfl⟩

/-- The placement of stores is exact.  Neither the analysis nor a search for writes is cut short;
the marks are the writes from which a path leads to an observation, in ascending order.  The walk
of a placer finds them too. -/
theorem placeStores_exact (s : Scope) {entry : BlockId}
    (setup : s.body.checkSetup s.body.flowGraph = .ok entry) :
    ∃ sol marks, s.effects.storeProblem.solve s.body s.body.flowGraph = .ok sol ∧
      sol.queue = [] ∧
      (∀ v points more, reach (s.effects.scan s.body s.body.flowGraph sol v)
          (Effects.searchLimit s.body points + more) points [] =
        reach (s.effects.scan s.body s.body.flowGraph sol v)
          (Effects.searchLimit s.body points) points []) ∧
      s.effects.placeStores s.body s.body.flowGraph = .ok { marks, visits := sol.visits } ∧
      (∀ f : StoreFinder,
        (f.compute s.effects s.body s.body.flowGraph).2 = .ok marks ∧
          (f.compute s.effects s.body s.body.flowGraph).1.visits = sol.visits) ∧
      marks.Pairwise (fun a b => a.1 < b.1) ∧
      ∀ w v, (w, v) ∈ marks ↔ s.effects.DueStore s.body w v := by
  have mono := storeProblem_monotoneOn s.body s.captures
  have order := storeProblem_semilattice s.body s.captures
  have solve : s.effects.storeProblem.solve s.body s.body.flowGraph =
      .ok (s.effects.storeProblem.solved s.body s.body.flowGraph entry) :=
    Problem.solve_eq_solved setup
  have ascending := s.effects.dueStores_ascending s.body s.body.flowGraph
    (s.effects.storeProblem.solved s.body s.body.flowGraph entry)
  have places : s.effects.placeStores s.body s.body.flowGraph =
      .ok { marks := s.effects.dueStores s.body s.body.flowGraph
              (s.effects.storeProblem.solved s.body s.body.flowGraph entry)
            visits := (s.effects.storeProblem.solved s.body s.body.flowGraph entry).visits } := by
    unfold Effects.placeStores
    rw [solve]
  refine ⟨_, _, solve, ?_, fun v => Effects.reach_scan_add, places, ?_, ascending, ?_⟩
  · exact Problem.queue_solved order (mono.steady order rfl entry)
  · intro f
    have finds := f.compute_finds s.body s.captures
    exact Finds.of_ok (places ▸ finds)
  · intro w v
    exact mem_dueStores_iff setup

theorem placeStores_counting :
    counting.body.checkSetup counting.body.flowGraph = .ok 0 ∧
      ∃ sol marks, counting.effects.storeProblem.solve counting.body counting.body.flowGraph =
          .ok sol ∧ sol.queue = [] ∧
        (∀ v points more, reach (counting.effects.scan counting.body counting.body.flowGraph sol v)
            (Effects.searchLimit counting.body points + more) points [] =
          reach (counting.effects.scan counting.body counting.body.flowGraph sol v)
            (Effects.searchLimit counting.body points) points []) ∧
        counting.effects.placeStores counting.body counting.body.flowGraph =
          .ok { marks, visits := sol.visits } ∧
        (∀ f : StoreFinder,
          (f.compute counting.effects counting.body counting.body.flowGraph).2 = .ok marks ∧
            (f.compute counting.effects counting.body counting.body.flowGraph).1.visits =
              sol.visits) ∧
        marks.Pairwise (fun a b => a.1 < b.1) ∧ marks = [(0, 0)] ∧
        ∀ w v, (w, v) ∈ marks ↔ counting.effects.DueStore counting.body w v := by
  have setup : counting.body.checkSetup counting.body.flowGraph = .ok 0 := by decide
  obtain ⟨sol, marks, solve, quiet, uncut, places, finds, ascending, exactly⟩ :=
    placeStores_exact counting setup
  have marked : (counting.effects.placeStores counting.body counting.body.flowGraph).map
      Placement.marks = .ok [(0, 0)] := by decide +kernel
  rw [places] at marked
  exact ⟨setup, sol, marks, solve, quiet, uncut, places, finds, ascending,
    Except.ok.inj marked, exactly⟩

/-- The placement of loads is exact.  The analysis runs until nothing is left to visit; the marks
are the reads of the scope that may be stale, in layout order, each at its first use.  A placer
finds the same. -/
theorem placeLoads_exact (s : Scope) {entry : BlockId}
    (setup : s.body.checkSetup s.body.flowGraph = .ok entry) :
    ∃ sol marks, s.effects.loadProblem.solve s.body s.body.flowGraph = .ok sol ∧
      sol.queue = [] ∧
      s.effects.placeLoads s.body s.body.flowGraph = .ok { marks, visits := sol.visits } ∧
      (∀ f : LoadFinder,
        (f.compute s.effects s.body s.body.flowGraph).2 = .ok marks ∧
          (f.compute s.effects s.body s.body.flowGraph).1.visits = sol.visits) ∧
      marks.Sublist s.body.reads ∧ marks.Nodup ∧
      ∀ r v, (r, v) ∈ marks ↔ s.effects.StaleRead s.body r v := by
  have mono := loadProblem_monotoneOn s.body s.captures
  have order := loadProblem_semilattice s.body s.captures
  have solve : s.effects.loadProblem.solve s.body s.body.flowGraph =
      .ok (s.effects.loadProblem.solved s.body s.body.flowGraph entry) :=
    Problem.solve_eq_solved setup
  have sublist := s.effects.dueLoads_sublist s.body
    (s.effects.loadProblem.solved s.body s.body.flowGraph entry)
  have places : s.effects.placeLoads s.body s.body.flowGraph =
      .ok { marks := s.effects.dueLoads s.body
              (s.effects.loadProblem.solved s.body s.body.flowGraph entry)
            visits := (s.effects.loadProblem.solved s.body s.body.flowGraph entry).visits } := by
    unfold Effects.placeLoads
    rw [solve]
  refine ⟨_, _, solve, ?_, places, ?_, sublist, s.body.reads_nodup.sublist sublist, ?_⟩
  · exact Problem.queue_solved order (mono.steady order rfl entry)
  · intro f
    have finds := f.compute_finds s.effects s.body s.body.flowGraph
    exact Finds.of_ok (places ▸ finds)
  · intro r v
    exact mem_dueLoads_iff setup

/-- A closure that passes a local of the enclosing scope to a call. -/
def forwarding : Scope :=
  .node
    { name := "forwarding"
      kind := .closure
      layout := ({} : Layout).appendBlock 0 |>.appendInsn 0 0 |>.appendInsn 1 0
      handlers := #[none]
      insns := #[.call none .selfValue "use" [.var 0] none, .ret .nil]
      vars := (({} : VarTable).intern (.named "outer" 1)).2 } []

theorem placeLoads_forwarding :
    forwarding.body.checkSetup forwarding.body.flowGraph = .ok 0 ∧
      ∃ sol marks, forwarding.effects.loadProblem.solve forwarding.body forwarding.body.flowGraph =
          .ok sol ∧ sol.queue = [] ∧
        forwarding.effects.placeLoads forwarding.body forwarding.body.flowGraph =
          .ok { marks, visits := sol.visits } ∧
        (∀ f : LoadFinder,
          (f.compute forwarding.effects forwarding.body forwarding.body.flowGraph).2 =
              .ok marks ∧
            (f.compute forwarding.effects forwarding.body forwarding.body.flowGraph).1.visits =
              sol.visits) ∧
        marks.Sublist forwarding.body.reads ∧ marks.Nodup ∧ marks = [(0, 0)] ∧
        ∀ r v, (r, v) ∈ marks ↔ forwarding.effects.StaleRead forwarding.body r v := by
  have setup : forwarding.body.checkSetup forwarding.body.flowGraph = .ok 0 := by decide
  obtain ⟨sol, marks, solve, quiet, places, finds, sublist, distinct, exactly⟩ :=
    placeLoads_exact forwarding setup
  have marked : (forwarding.effects.placeLoads forwarding.body forwarding.body.flowGraph).map
      Placement.marks = .ok [(0, 0)] := by decide +kernel
  rw [places] at marked
  exact ⟨setup, sol, marks, solve, quiet, places, finds, sublist, distinct,
    Except.ok.inj marked, exactly⟩

end FramePlacement
