import FramePlacement.Proofs.Idempotence
import FramePlacement.Proofs.SharedSearch
/-!
# Placers that have been used before

Whatever a placer remembers, it does to the next scope what the definitions without memory say
(`Placer.runAlone_eq`, `Placer.run_eq`).  The tables are emptied and recorded anew.  The solver
keeps a flag for each block that waits; the flags say what is in the queue (`Solver.Sound`), so a
run takes the same steps as one without flags.
-/

set_option autoImplicit false

namespace FramePlacement

/-! ## Tables -/

theorem FlowGraph.foldl_record (s : Body) (blocks : List BlockId) (g : FlowGraph) :
    blocks.foldl (record s) g =
      { g with
        edges := g.edges ++ blocks.flatMap fun b => (s.flowTargets b).map fun target => (b, target)
        excEdges := g.excEdges ++
          blocks.flatMap fun b => (s.excTargets b).map fun handler => (b, handler)
        exits := g.exits ++ blocks.filter s.leaves } := by
  induction blocks generalizing g with
  | nil => simp
  | cons b rest ih =>
      rw [List.foldl_cons, ih]
      unfold record
      cases leaves : s.leaves b with
      | true => simp [leaves]
      | false => simp [leaves]

theorem FlowGraph.compute_eq (g : FlowGraph) (s : Body) : g.compute s = s.flowGraph := by
  unfold compute
  rw [foldl_record]
  simp only [clear, List.nil_append]
  rfl

theorem Captures.compute_eq (captures : Captures) (s : Scope) :
    captures.compute s = s.captures := by
  unfold compute clear
  simp only [List.drop_nil, List.append_nil]
  rfl

theorem Effects.compute_eq (e : Effects) (s : Body) (captures : Captures) :
    e.compute s captures = s.effects captures := by
  have candidates : (∅ : IdSet) ∪ s.frameCandidates = s.frameCandidates := by
    ext v
    simp
  unfold compute clear
  simp only [candidates, IdMap.record, IdMap.const, List.append_nil]
  rfl

/-! ## The solver -/

namespace Problem

variable {F : Type} (p : Problem F) (s : Body) (g : FlowGraph) (entry : BlockId)

theorem seed_nodup : (p.seed g).Nodup := by
  unfold seed FlowGraph.postOrder
  cases p.direction with
  | forward => exact g.reversePostOrder_nodup
  | backward => exact List.nodup_reverse.mpr g.reversePostOrder_nodup

variable [DecidableEq F]

theorem visit_eq_recompute (sol : Solution F) (b : BlockId) :
    p.visit s g entry sol b =
      if (p.recompute s g entry sol b).1 then
        (p.recompute s g entry sol b).2.enqueueAll (p.dependents g b)
      else (p.recompute s g entry sol b).2 := by
  unfold visit recompute dependents
  cases p.direction <;> rfl

theorem recompute_queue (sol : Solution F) (queue : List BlockId) (b : BlockId) :
    p.recompute s g entry { sol with queue } b =
      ((p.recompute s g entry sol b).1, { (p.recompute s g entry sol b).2 with queue }) := by
  unfold recompute
  cases p.direction <;> rfl

end Problem

namespace Solver

/-- The flags say which blocks are in the queue, and none is there twice. -/
structure Sound (w : Solver) : Prop where
  distinct : w.queue.Nodup
  flags : ∀ b, b ∈ w.waiting ↔ b ∈ w.queue

theorem sound_clear (w : Solver) : w.clear.Sound where
  distinct := List.nodup_nil
  flags b := by simp [clear]

namespace Sound

variable {w : Solver}

theorem queue_push (sound : w.Sound) (b : BlockId) :
    (w.push b).queue = Solution.enqueue w.queue b := by
  unfold push Solution.enqueue
  by_cases waits : b ∈ w.waiting
  · rw [if_pos waits, if_pos ((sound.flags b).mp waits)]
  · rw [if_neg waits, if_neg (mt (sound.flags b).mpr waits)]

theorem push (sound : w.Sound) (b : BlockId) : (w.push b).Sound := by
  unfold Solver.push
  by_cases waits : b ∈ w.waiting
  · rw [if_pos waits]
    exact sound
  · rw [if_neg waits]
    have absent : ¬ b ∈ w.queue := mt (sound.flags b).mpr waits
    refine ⟨?_, fun c => ?_⟩
    · exact (List.perm_append_singleton b w.queue).nodup_iff.mpr
        (List.nodup_cons.mpr ⟨absent, sound.distinct⟩)
    · rw [IdSet.mem_insert, sound.flags, List.mem_append, List.mem_singleton, or_comm]

theorem pushAll (sound : w.Sound) (blocks : List BlockId) :
    (blocks.foldl Solver.push w).Sound ∧
      (blocks.foldl Solver.push w).queue = blocks.foldl Solution.enqueue w.queue := by
  induction blocks generalizing w with
  | nil => exact ⟨sound, rfl⟩
  | cons b rest ih =>
      rw [List.foldl_cons, List.foldl_cons, ← sound.queue_push]
      exact ih (sound.push b)

theorem pop {b : BlockId} {rest : List BlockId} (sound : w.Sound) (first : w.queue = b :: rest) :
    Sound { queue := rest, waiting := w.waiting.erase b } := by
  have distinct := sound.distinct
  rw [first] at distinct
  obtain ⟨absent, others⟩ := List.nodup_cons.mp distinct
  refine ⟨others, fun c => ?_⟩
  rw [IdSet.mem_erase, sound.flags, first, List.mem_cons]
  constructor
  · rintro ⟨differ, same | member⟩
    · exact absurd same differ
    · exact member
  · intro member
    exact ⟨fun same => absent (same ▸ member), Or.inr member⟩

end Sound

variable {F : Type} [DecidableEq F] (p : Problem F) (s : Body) (g : FlowGraph) (entry : BlockId)

theorem foldl_enqueue_of_distinct {queue blocks : List BlockId}
    (distinct : (queue ++ blocks).Nodup) :
    blocks.foldl Solution.enqueue queue = queue ++ blocks := by
  induction blocks generalizing queue with
  | nil => exact (List.append_nil queue).symm
  | cons b rest ih =>
      have absent : ¬ b ∈ queue := fun member =>
        (List.nodup_append.mp distinct).2.2 b member b List.mem_cons_self rfl
      rw [List.append_cons] at distinct ⊢
      rw [List.foldl_cons, Solution.enqueue, if_neg absent]
      exact ih distinct

theorem drain_eq (limit : Nat) {w : Solver} (sound : w.Sound) (sol : Solution F) :
    { (drain p s g entry limit w sol).2 with queue := (drain p s g entry limit w sol).1.queue } =
      p.iterate s g entry limit { sol with queue := w.queue } := by
  induction limit generalizing w sol with
  | zero => rfl
  | succ limit ih =>
      rw [Problem.iterate]
      rw [drain]
      cases first : w.queue with
      | nil =>
          dsimp only
          rw [first]
      | cons b rest =>
          have lowered := sound.pop first
          dsimp only
          rw [Problem.visit_eq_recompute]
          rw [p.recompute_queue s g entry { sol with trace := b :: sol.trace } rest b]
          dsimp only
          cases (p.recompute s g entry { sol with trace := b :: sol.trace } b).1 with
          | true =>
              obtain ⟨pushed, queue⟩ := lowered.pushAll (p.dependents g b).toList
              rw [if_pos rfl, if_pos rfl, ih pushed, queue]
              rfl
          | false =>
              rw [if_neg Bool.false_ne_true, if_neg Bool.false_ne_true, ih lowered]

/-- A solver finds what an unused one finds. -/
theorem solve_eq (w : Solver) : (w.solve p s g).2 = p.solve s g := by
  unfold solve Problem.solve
  cases s.checkSetup g with
  | error cause => rfl
  | ok entry =>
      obtain ⟨sound, queue⟩ := w.sound_clear.pushAll (p.seed g)
      have fresh : (p.seed g).foldl Solution.enqueue [] = [] ++ p.seed g :=
        foldl_enqueue_of_distinct (p.seed_nodup g)
      have seeded : ((p.seed g).foldl push w.clear).queue = p.seed g := queue.trans fresh
      have same := drain_eq p s g entry (p.visitLimit g) sound { p.start g with queue := [] }
      rw [seeded] at same
      exact congrArg Except.ok same

end Solver

/-! ## Finding stores and loads -/

/-- A search with memory has found what one without has found, in as many visits. -/
inductive Finds (visits : Nat) :
    Except SetupError (List Mark) → Except SetupError Placement → Prop where
  | ok {marks : List Mark} : Finds visits (.ok marks) (.ok { marks, visits })
  | error {cause : SetupError} : Finds visits (.error cause) (.error cause)

theorem StoreFinder.compute_finds (f : StoreFinder) (s : Body) (captures : Captures) :
    Finds (f.compute (s.effects captures) s s.flowGraph).1.visits
      (f.compute (s.effects captures) s s.flowGraph).2
      ((s.effects captures).placeStores s s.flowGraph) := by
  obtain ⟨solver, solved⟩ : ∃ solver,
      f.clear.solver.solve (s.effects captures).storeProblem s s.flowGraph =
        (solver, (s.effects captures).storeProblem.solve s s.flowGraph) :=
    ⟨_, Prod.ext rfl (Solver.solve_eq _ s s.flowGraph _)⟩
  unfold Effects.placeStores compute
  dsimp only
  rw [solved]
  cases setup : s.checkSetup s.flowGraph with
  | error cause =>
      unfold Problem.solve
      rw [setup]
      exact Finds.error
  | ok entry =>
      rw [Problem.solve_eq_solved setup]
      dsimp only
      have empty : Searched (s.effects captures) s
          ((s.effects captures).storeProblem.solved s s.flowGraph entry) []
          { f.clear with
            solver := solver
            visits := ((s.effects captures).storeProblem.solved s s.flowGraph entry).visits } :=
        searched_nil rfl rfl rfl
      have searched := empty.all (s.layout.blocks.flatMap ((s.effects captures).unsyncedIn s
        s.flowGraph ((s.effects captures).storeProblem.solved s s.flowGraph entry)))
      rw [List.nil_append] at searched
      rw [searched.marked_eq setup, visits_searches]
      exact Finds.ok

theorem LoadFinder.compute_finds (f : LoadFinder) (e : Effects) (s : Body) (g : FlowGraph) :
    Finds (compute e s g f).1.visits (compute e s g f).2 (e.placeLoads s g) := by
  obtain ⟨solver, solved⟩ : ∃ solver,
      f.clear.solver.solve e.loadProblem s g = (solver, e.loadProblem.solve s g) :=
    ⟨_, Prod.ext rfl (Solver.solve_eq _ s g _)⟩
  unfold Effects.placeLoads compute
  dsimp only
  rw [solved]
  cases e.loadProblem.solve s g with
  | error cause => exact Finds.error
  | ok sol => exact Finds.ok

/-! ## Placing -/

/-- A placement with memory has come to what one without has come to. -/
inductive Agrees :
    Body × Except PlacementError Stats → Except PlacementError (Body × Stats) → Prop where
  | ok {body : Body} {stats : Stats} : Agrees (body, .ok stats) (.ok (body, stats))
  | error {body : Body} {error : PlacementError} : Agrees (body, .error error) (.error error)

namespace Placer

variable {p : Placer} {s : Body} {captures : Captures}

theorem addStores_cases (effects : p.effects = s.effects captures) (graph : p.graph = s.flowGraph) :
    ∃ stores, (∃ placement, p.effects.placeStores s p.graph = .ok placement ∧
        s.insertStores placement.marks = .ok (s.withStores placement.marks) ∧
        p.addStores s = ({ p with stores }, s.withStores placement.marks,
          .ok { stores := placement.marks.length, visits := placement.visits })) ∨
      ∃ cause, p.effects.placeStores s p.graph = .error cause ∧
        p.addStores s = ({ p with stores }, s, .error (.setup cause)) := by
  have finds := p.stores.compute_finds s captures
  have inserted : ∀ placement, p.effects.placeStores s p.graph = .ok placement →
      s.insertStores placement.marks = .ok (s.withStores placement.marks) := by
    intro placement placed
    rw [effects, graph] at placed
    exact Body.insertStores_of_due (placeStores_eq_ok placed)
  rw [← effects, ← graph] at finds
  unfold addStores
  generalize p.effects.placeStores s p.graph = wanted at finds inserted ⊢
  generalize p.stores.compute p.effects s p.graph = found at finds ⊢
  obtain ⟨stores, marks⟩ := found
  cases finds with
  | ok =>
      have goes := inserted _ rfl
      refine ⟨stores, Or.inl ⟨_, rfl, goes, ?_⟩⟩
      dsimp only at goes ⊢
      rw [goes]
  | error => exact ⟨stores, Or.inr ⟨_, rfl, rfl⟩⟩

theorem addLoads_cases (effects : p.effects = s.effects captures) (graph : p.graph = s.flowGraph) :
    ∃ loads, (∃ placement, p.effects.placeLoads s p.graph = .ok placement ∧
        s.insertLoads placement.marks = .ok (s.withLoads placement.marks) ∧
        p.addLoads s = ({ p with loads }, s.withLoads placement.marks,
          .ok { loads := placement.marks.length, visits := placement.visits })) ∨
      ∃ cause, p.effects.placeLoads s p.graph = .error cause ∧
        p.addLoads s = ({ p with loads }, s, .error (.setup cause)) := by
  have finds := p.loads.compute_finds p.effects s p.graph
  have inserted : ∀ placement, p.effects.placeLoads s p.graph = .ok placement →
      s.insertLoads placement.marks = .ok (s.withLoads placement.marks) := by
    intro placement placed
    rw [effects, graph] at placed
    exact Body.insertLoads_of_stale (placeLoads_eq_ok placed)
  unfold addLoads
  generalize p.effects.placeLoads s p.graph = wanted at finds inserted ⊢
  generalize p.loads.compute p.effects s p.graph = found at finds ⊢
  obtain ⟨loads, marks⟩ := found
  cases finds with
  | ok =>
      have goes := inserted _ rfl
      refine ⟨loads, Or.inl ⟨_, rfl, goes, ?_⟩⟩
      dsimp only at goes ⊢
      rw [goes]
  | error => exact ⟨loads, Or.inr ⟨_, rfl, rfl⟩⟩

theorem moves_add (stores loads first second : Nat) :
    ({ stores, visits := first } + { loads, visits := second } : Stats) =
      { stores, loads, visits := first + second } := by
  change Stats.mk 0 (stores + 0) (0 + loads) 0 (first + second) = _
  rw [Nat.zero_add, Nat.add_zero]

theorem addMoves_agrees (known : s.insnsKnown = true) (effects : p.effects = s.effects captures)
    (graph : p.graph = s.flowGraph) :
    ∃ stores loads found, p.addMoves s = ({ p with stores, loads }, found) ∧
      Agrees found (s.insertMoves p.effects p.graph) := by
  unfold addMoves Body.insertMoves
  rcases addStores_cases effects graph with
    ⟨stores, ⟨first, placed, inserted, run⟩ | ⟨cause, failed, run⟩⟩
  · rw [run, placed]
    dsimp only [bind, Except.bind, Except.mapError]
    rw [inserted]
    rw [effects, graph] at placed
    obtain ⟨stored, storedKnown, _⟩ := withStores_settles known (placeStores_eq_ok placed)
    -- the moves change neither the graph nor the effects, so both still describe the scope
    rcases addLoads_cases (p := { p with stores }) (effects.trans (stored.effects captures).symm)
      (graph.trans stored.flowGraph.symm) with
      ⟨loads, ⟨second, read, inserted, run⟩ | ⟨cause, failed, run⟩⟩
    · rw [run]
      dsimp only at read ⊢
      rw [read]
      dsimp only
      rw [inserted, moves_add]
      dsimp only
      by_cases none : second.marks.length = 0
      · rw [if_pos none, if_pos (List.isEmpty_iff_length_eq_zero.mpr none)]
        exact ⟨stores, loads, _, rfl, Agrees.ok⟩
      · rw [if_neg none, if_neg (mt List.isEmpty_iff_length_eq_zero.mp none)]
        rw [effects, graph, ← stored.effects captures, ← stored.flowGraph] at read
        obtain ⟨loaded, _, _⟩ := withLoads_settles storedKnown (stored.effects captures ▸
          placeLoads_eq_ok read)
        have both := stored.trans loaded
        rcases addStores_cases (p := { p with stores, loads })
          (effects.trans (both.effects captures).symm) (graph.trans both.flowGraph.symm) with
          ⟨again, ⟨third, placed, inserted, run⟩ | ⟨cause, failed, run⟩⟩
        · rw [run]
          dsimp only at placed ⊢
          rw [placed]
          dsimp only
          rw [inserted]
          exact ⟨again, loads, _, rfl, Agrees.ok⟩
        · rw [run]
          dsimp only at failed ⊢
          rw [failed]
          exact ⟨again, loads, _, rfl, Agrees.error⟩
    · rw [run]
      dsimp only at failed ⊢
      rw [failed]
      exact ⟨stores, loads, _, rfl, Agrees.error⟩
  · rw [run, failed]
    exact ⟨stores, p.loads, _, rfl, Agrees.error⟩

/-- Whatever the placer remembers, a scope is placed as without memory. -/
theorem place_agrees (p : Placer) {s : Scope} (known : s.body.insnsKnown = true) :
    ∃ after found, p.place s = (after, found) ∧ after.config = p.config ∧
      Agrees found (s.body.place p.config.verify s.captures) := by
  have effects : (p.clear.study s).effects = s.body.effects s.captures := by
    unfold study
    dsimp only
    rw [Effects.compute_eq, Captures.compute_eq]
  have graph : (p.clear.study s).graph = s.body.flowGraph := FlowGraph.compute_eq _ _
  obtain ⟨stores, loads, found, run, agrees⟩ := addMoves_agrees known effects graph
  rw [effects, graph] at agrees
  have config : (p.clear.study s).config = p.config := rfl
  unfold place Body.place Body.insertFrameInsns
  rw [run]
  generalize s.body.insertMoves (s.body.effects s.captures) s.body.flowGraph = wanted at agrees ⊢
  cases agrees with
  | error => exact ⟨_, _, rfl, rfl, Agrees.error⟩
  | ok =>
      dsimp only [bind, Except.bind, pure, Except.pure]
      rw [effects, config]
      split
      · split
        · next accepted =>
            rw [accepted]
            exact ⟨_, _, rfl, rfl, Agrees.ok⟩
        · next rejected =>
            rw [rejected]
            exact ⟨_, _, rfl, rfl, Agrees.error⟩
      · exact ⟨_, _, rfl, rfl, Agrees.ok⟩

theorem runAlone_eq (p : Placer) {s : Scope} (safe : s.runAloneDangles p.config = false) :
    ∃ after, p.runAlone s = (after, s.runAlone p.config) ∧ after.config = p.config := by
  have whole : s.withBody s.body = s := by
    cases s
    rfl
  unfold runAlone Scope.runAlone Body.run
  by_cases exempt : s.body.isExempt = true
  · rw [if_pos exempt, if_pos exempt]
    dsimp only
    rw [whole]
    exact ⟨p, rfl, rfl⟩
  · have known : s.body.insnsKnown = true :=
      Scope.insnsKnown_of_runAloneDangles (Bool.eq_false_of_not_eq_true exempt) safe
    obtain ⟨after, found, run, config, agrees⟩ := p.place_agrees known
    rw [if_neg exempt, if_neg exempt, run]
    generalize s.body.place p.config.verify s.captures = wanted at agrees ⊢
    cases agrees with
    | ok => exact ⟨after, rfl, config⟩
    | error =>
        dsimp only
        rw [config]
        cases p.config.onError with
        | abort => exact ⟨after, rfl, config⟩
        | fallback => exact ⟨after, rfl, config⟩

theorem runAfter_eq (p : Placer) (done : Stats) {s : Scope}
    (safe : s.runAloneDangles p.config = false) :
    ∃ after, p.runAfter done s = (after, s.runAfter p.config done) ∧ after.config = p.config := by
  obtain ⟨after, run, config⟩ := p.runAlone_eq safe
  unfold runAfter Scope.runAfter
  rw [run]
  generalize s.runAlone p.config = found
  obtain ⟨t, stats | error⟩ := found
  · exact ⟨after, rfl, config⟩
  · exact ⟨after, rfl, config⟩

mutual
theorem runTree_eq (p : Placer) : ∀ s : Scope, s.runTreeDangles p.config = false →
    ∃ after, p.runTree s = (after, s.runTree p.config) ∧ after.config = p.config
  | .node body closures, safe => by
      rw [Scope.runTreeDangles, Bool.or_eq_false_iff] at safe
      obtain ⟨used, run, config⟩ := runForest_eq p closures safe.1
      rw [runTree, Scope.runTree, run]
      generalize Scope.runForest p.config closures = found at safe ⊢
      obtain ⟨placed, error | done⟩ := found
      · exact ⟨used, rfl, config⟩
      · have lone : (Scope.node body placed).runAloneDangles used.config = false := config ▸ safe.2
        obtain ⟨after, run, same⟩ := used.runAfter_eq done lone
        exact ⟨after, config ▸ run, same.trans config⟩

theorem runForest_eq (p : Placer) : ∀ closures : List Scope,
    Scope.runForestDangles p.config closures = false →
    ∃ after, p.runForest closures = (after, Scope.runForest p.config closures) ∧
      after.config = p.config
  | [], _ => ⟨p, rfl, rfl⟩
  | closure :: rest, safe => by
      rw [Scope.runForestDangles, Bool.or_eq_false_iff] at safe
      obtain ⟨used, run, config⟩ := runTree_eq p closure safe.1
      rw [runForest, Scope.runForest, run]
      generalize closure.runTree p.config = found at safe ⊢
      obtain ⟨placed, error | done⟩ := found
      · exact ⟨used, rfl, config⟩
      · have others : Scope.runForestDangles used.config rest = false := config ▸ safe.2
        obtain ⟨after, run, same⟩ := runForest_eq used rest others
        rw [config] at run
        dsimp only
        rw [run]
        generalize Scope.runForest p.config rest = found
        obtain ⟨placed, error | more⟩ := found
        · exact ⟨after, rfl, same.trans config⟩
        · exact ⟨after, rfl, same.trans config⟩
end

/-- A run over a scope and its closures does not depend on what the placer has handled before. -/
theorem run_eq (p : Placer) {s : Scope} (safe : s.runDangles p.config = false) :
    ∃ after, p.run s = (after, s.run p.config) ∧ after.config = p.config := by
  unfold run Scope.run
  unfold Scope.runDangles at safe
  cases covered : p.config.includeClosures with
  | true =>
      rw [covered, if_pos rfl] at safe
      exact p.runTree_eq s safe
  | false =>
      rw [covered, if_neg Bool.false_ne_true] at safe
      exact p.runAfter_eq {} safe

end Placer

end FramePlacement
