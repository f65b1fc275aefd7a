import FramePlacement.Proofs.Settled
/-!
# Running the placement again

A run leaves a scope tree on which the next run with the same configuration does nothing.  A scope
that was placed has nothing due (`Body.place_again`); a scope that was marked eager is left alone;
and a scope that failed is as it was, so it fails again.  The same holds of every closure before the
first failure, which is where both runs stop (`Scope.runTree_again`).

The second run also looks up no unknown identifier, since it looks at the blocks, variables and
closures that the first one has looked at.
-/

set_option autoImplicit false

namespace FramePlacement

/-! ## A placed scope -/

section Placed

variable {s t : Body} {captures : Captures} {entry : BlockId}

theorem placeStores_isOk (setup : s.checkSetup s.flowGraph = .ok entry) :
    ∃ placement, (s.effects captures).placeStores s s.flowGraph = .ok placement := by
  unfold Effects.placeStores
  rw [Problem.solve_eq_solved setup]
  exact ⟨_, rfl⟩

theorem placeLoads_isOk (setup : s.checkSetup s.flowGraph = .ok entry) :
    ∃ placement, (s.effects captures).placeLoads s s.flowGraph = .ok placement := by
  unfold Effects.placeLoads
  rw [Problem.solve_eq_solved setup]
  exact ⟨_, rfl⟩

theorem setup_of_placeStores {placement : Placement}
    (placed : (s.effects captures).placeStores s s.flowGraph = .ok placement) :
    ∃ entry, s.checkSetup s.flowGraph = .ok entry := by
  cases setup : s.checkSetup s.flowGraph with
  | ok entry => exact ⟨entry, rfl⟩
  | error cause =>
      unfold Effects.placeStores Problem.solve at placed
      rw [setup] at placed
      cases placed

theorem eq_nil_of_not_mem {marks : List Mark} (none : ∀ i v, ¬ (i, v) ∈ marks) : marks = [] :=
  List.eq_nil_iff_forall_not_mem.mpr fun mark => none mark.1 mark.2

theorem Body.insertMoves_of_settled (setup : s.checkSetup s.flowGraph = .ok entry)
    (reads : ∀ r v, ¬ (s.effects captures).StaleRead s r v)
    (stores : ∀ w v, ¬ (s.effects captures).DueStore s w v) :
    ∃ visits, s.insertMoves (s.effects captures) s.flowGraph =
      .ok (s, { visits := visits }) := by
  obtain ⟨first, placed⟩ : ∃ placement,
      (s.effects captures).placeStores s s.flowGraph = .ok placement := placeStores_isOk setup
  obtain ⟨loads, found⟩ : ∃ placement,
      (s.effects captures).placeLoads s s.flowGraph = .ok placement := placeLoads_isOk setup
  have noStores : first.marks = [] := eq_nil_of_not_mem fun w v marked =>
    stores w v ((placeStores_eq_ok placed w v).mp marked)
  have noLoads : loads.marks = [] := eq_nil_of_not_mem fun r v marked =>
    reads r v ((placeLoads_eq_ok found r v).mp marked)
  have stored : s.insertStores [] = .ok s := rfl
  have loaded : s.insertLoads [] = .ok s := rfl
  refine ⟨first.visits + loads.visits, ?_⟩
  unfold Body.insertMoves
  simp only [placed, Except.mapError, bind, Except.bind, noStores, stored, found, noLoads, loaded]
  rfl

theorem Body.Extends.moves_of_allocs (extend : s.Extends t)
    (allocs : ∀ b, ∀ entry ∈ t.code b, s.owns entry = false → entry.2.isAlloc = true) :
    (t.allCode.filterMap fun entry => entry.2.movedVar?) =
      s.allCode.filterMap fun entry => entry.2.movedVar? := by
  rw [← extend.allCode, List.filterMap_filter]
  refine List.filterMap_congr fun entry member => ?_
  obtain ⟨b, inside⟩ := Body.mem_allCode_iff.mp member
  split
  · rfl
  · next foreign =>
      have alloc := allocs b entry inside (Bool.not_eq_true _ ▸ foreign)
      cases insn : entry.2 with
      | allocFrame => rfl
      | _ => rw [insn] at alloc; cases alloc

theorem Body.movesOwnLocals_eq (s : Body) : s.movesOwnLocals =
    (s.allCode.filterMap fun entry => entry.2.movedVar?).any s.vars.isOwn := by
  unfold Body.movesOwnLocals
  induction s.allCode with
  | nil => rfl
  | cons entry rest ih =>
      rw [List.any_cons, ih, List.filterMap_cons]
      unfold Body.movesOwn
      cases entry.2.movedVar? with
      | none => rfl
      | some v => rfl

theorem Body.movesOwnLocals_of_moves {s t : Body} (vars : t.vars = s.vars)
    (moves : (t.allCode.filterMap fun entry => entry.2.movedVar?) =
      s.allCode.filterMap fun entry => entry.2.movedVar?) :
    t.movesOwnLocals = s.movesOwnLocals := by
  rw [Body.movesOwnLocals_eq, Body.movesOwnLocals_eq, moves, vars]

def Body.Allocates (s : Body) : Prop :=
  ∀ top, s.layout.entry? = some top → s.allocatesIn top = true

theorem Body.insertAlloc_of_allocates (allocates : s.Allocates) : s.insertAlloc = (0, s) := by
  unfold Body.insertAlloc
  split
  · next top first => rw [if_pos (allocates top first)]
  · rfl

theorem Body.allocates_insertAlloc (known : s.insnsKnown = true) : s.insertAlloc.2.Allocates := by
  unfold Body.insertAlloc
  split
  · next top first =>
      split
      · next has =>
          intro other also
          rw [first] at also
          cases also
          exact has
      · have listed : top ∈ s.layout.blocks := List.mem_of_head? first
        intro other also
        change (s.layout.prependInsn s.insns.size top).blocks.head? = some other at also
        rw [Layout.blocks_prependInsn] at also
        have same : top = other := Option.some.inj (first.symm.trans also)
        subst same
        unfold Body.allocatesIn
        rw [Body.code_prepend known _ _ _ listed, if_pos rfl]
        rfl
  · next none =>
      intro top first
      rw [none] at first
      cases first

theorem Body.allocated_again (known : s.insnsKnown = true) (e : Effects) :
    (s.allocated e).2.renumbered.allocated e = (0, (s.allocated e).2.renumbered) := by
  obtain ⟨extend, _, allocs⟩ := Body.allocated_extends known e
  have moves : (s.allocated e).2.renumbered.movesOwnLocals = s.movesOwnLocals :=
    Body.movesOwnLocals_of_moves extend.vars (extend.moves_of_allocs allocs)
  have needs : e.needsFrame (s.allocated e).2.renumbered = e.needsFrame s := by
    unfold Effects.needsFrame
    rw [extend.captured]
  by_cases used : (e.needsFrame s || s.movesOwnLocals) = true
  · have placed : (s.allocated e).2 = s.insertAlloc.2 := by
      unfold Body.allocated
      rw [if_pos used]
    rw [placed] at needs moves ⊢
    have allocates : s.insertAlloc.2.renumbered.Allocates := Body.allocates_insertAlloc known
    unfold Body.allocated
    rw [needs, moves, if_pos used, Body.insertAlloc_of_allocates allocates]
  · have placed : (s.allocated e).2 = s := by
      unfold Body.allocated
      rw [if_neg used]
    rw [placed] at needs moves ⊢
    unfold Body.allocated
    rw [needs, moves, if_neg used]

theorem Body.insertFrameInsns_of_moves {e : Effects} {g : FlowGraph} {moved : Body} {done : Stats}
    (moves : s.insertMoves e g = .ok (moved, done)) : s.insertFrameInsns e g =
      .ok ((moved.allocated e).2.renumbered, done + { allocs := (moved.allocated e).1 }) := by
  unfold Body.insertFrameInsns
  rw [moves]
  rfl

theorem Body.insertFrameInsns_again (known : s.insnsKnown = true) {stats : Stats}
    (placed : s.insertFrameInsns (s.effects captures) s.flowGraph = .ok (t, stats)) :
    ∃ visits, t.insertMoves (t.effects captures) t.flowGraph = .ok (t, { visits := visits }) ∧
      t.insertFrameInsns (t.effects captures) t.flowGraph = .ok (t, { visits := visits }) := by
  obtain ⟨extend, _, reads, stores⟩ := Body.insertFrameInsns_settled known placed
  have effects := extend.effects captures
  obtain ⟨moved, done, moves, shape, _⟩ := Body.insertFrameInsns_eq_ok placed
  obtain ⟨_, _, first, _, _⟩ := Body.insertMoves_eq_ok moves
  obtain ⟨entry, setup⟩ := setup_of_placeStores first
  obtain ⟨_, movedKnown, _, _⟩ := Body.insertMoves_settled known moves
  rw [← effects] at reads stores
  rw [← extend.flowGraph, ← extend.checkSetup] at setup
  obtain ⟨visits, none⟩ := Body.insertMoves_of_settled setup reads stores
  refine ⟨visits, none, ?_⟩
  rw [Body.insertFrameInsns_of_moves none, effects, shape, Body.allocated_again movedKnown]
  rfl

end Placed

namespace Body

variable {s t : Body} {captures : Captures} {verified : Bool} {stats : Stats}

theorem place_eq_ok (placed : s.place verified captures = .ok (t, stats)) :
    s.insertFrameInsns (s.effects captures) s.flowGraph = .ok (t, stats) ∧
      (verified = true → t.checkInvariants = .ok ()) := by
  unfold place at placed
  split at placed
  · cases placed
  · next frame =>
      split at placed
      · split at placed
        · next accepted =>
            cases placed
            exact ⟨frame, fun _ => accepted⟩
        · cases placed
      · next unverified =>
          cases placed
          exact ⟨frame, fun required => absurd required unverified⟩

theorem place_of_frame
    (frame : s.insertFrameInsns (s.effects captures) s.flowGraph = .ok (t, stats))
    (accepted : verified = true → t.checkInvariants = .ok ()) :
    s.place verified captures = .ok (t, stats) := by
  unfold place
  rw [frame]
  dsimp only
  split
  · next required => rw [accepted required]
  · rfl

theorem moveSearchDangles_of_moves (vars : t.vars = s.vars)
    (moves : (t.allCode.filterMap fun entry => entry.2.movedVar?) =
      s.allCode.filterMap fun entry => entry.2.movedVar?) :
    t.moveSearchDangles = s.moveSearchDangles := by
  unfold moveSearchDangles varsKnown
  rw [moves, vars]

end Body

/-! ## A scope with its closures -/

def Stats.Idle (stats : Stats) : Prop :=
  stats.allocs = 0 ∧ stats.stores = 0 ∧ stats.loads = 0 ∧ stats.fallbacks = 0

theorem Stats.Idle.add {first second : Stats} (idle : first.Idle) (also : second.Idle) :
    (first + second).Idle := by
  obtain ⟨allocs, stores, loads, fallbacks⟩ := idle
  obtain ⟨moreAllocs, moreStores, moreLoads, moreFallbacks⟩ := also
  change first.allocs + second.allocs = 0 ∧ first.stores + second.stores = 0 ∧
    first.loads + second.loads = 0 ∧ first.fallbacks + second.fallbacks = 0
  omega

/-- How the result of a run compares with the result of the run before it. -/
inductive Repeats : Except PlacementError Stats → Except PlacementError Stats → Prop where
  | ok {stats again : Stats} : again.Idle → Repeats (.ok stats) (.ok again)
  | error {cause : PlacementError} : Repeats (.error cause) (.error cause)

namespace Scope

variable {config : Config} {body placed : Body} {closures : List Scope}

theorem placeDangles_iff {entry : BlockId} {moved : Body} {done stats : Stats}
    (setup : body.checkSetup body.flowGraph = .ok entry)
    (moves : body.insertMoves (body.effects (node body closures).captures) body.flowGraph =
      .ok (moved, done))
    (frame : body.insertFrameInsns (body.effects (node body closures).captures) body.flowGraph =
      .ok (placed, stats)) :
    (node body closures).placeDangles config = false ↔
      body.blocksKnown = true ∧ body.insnsKnown = true ∧
      (node body closures).capturesKnown = true ∧
      body.visitsKnown body.flowGraph.reversePostOrder = true ∧
      ((body.effects (node body closures).captures).needsFrame moved = false →
        moved.moveSearchDangles = false) ∧
      (config.verify = true → placed.verifyDangles = false) := by
  unfold placeDangles Scope.effects Scope.body
  simp only [setup, moves, frame]
  cases body.blocksKnown with
  | false => simp
  | true =>
      cases body.insnsKnown with
      | false => simp
      | true =>
          cases (node body closures).capturesKnown with
          | false => simp
          | true =>
              cases body.visitsKnown body.flowGraph.reversePostOrder with
              | false => simp
              | true => simp

theorem insnsKnown_of_placeDangles (safe : (node body closures).placeDangles config = false) :
    body.insnsKnown = true := by
  unfold placeDangles Scope.body at safe
  cases known : body.insnsKnown with
  | true => rfl
  | false => simp [known] at safe

theorem placeDangles_of_runAloneDangles {s : Scope} (proper : s.body.isExempt = false)
    (safe : s.runAloneDangles config = false) : s.placeDangles config = false := by
  unfold runAloneDangles at safe
  rw [proper, Bool.not_false, Bool.true_and] at safe
  exact safe

theorem insnsKnown_of_runAloneDangles {s : Scope} (proper : s.body.isExempt = false)
    (safe : s.runAloneDangles config = false) : s.body.insnsKnown = true := by
  cases s with
  | node body closures =>
      exact insnsKnown_of_placeDangles (placeDangles_of_runAloneDangles proper safe)

theorem captures_of_vars (vars : placed.vars = body.vars) :
    (node placed closures).captures = (node body closures).captures := by
  unfold captures Scope.body Scope.closures
  dsimp only
  rw [vars]

structure Solvable (s : Scope) (entry : BlockId) : Prop where
  setup : s.body.checkSetup s.body.flowGraph = .ok entry
  blocks : s.body.blocksKnown = true
  closures : s.capturesKnown = true
  visits : s.body.visitsKnown s.body.flowGraph.reversePostOrder = true

theorem Solvable.of_extends {entry : BlockId} (solvable : (node body closures).Solvable entry)
    (extend : body.Extends placed) (known : placed.insnsKnown = true) :
    (node placed closures).Solvable entry where
  setup := by
    change placed.checkSetup placed.flowGraph = .ok entry
    rw [extend.flowGraph, extend.checkSetup]
    exact solvable.setup
  blocks := by
    have blocks : body.blocksKnown = true := solvable.blocks
    change placed.blocksKnown = true
    unfold Body.blocksKnown at blocks ⊢
    rw [extend.blocks, extend.handlers]
    exact blocks
  closures := solvable.closures
  visits := by
    have visits : body.visitsKnown body.flowGraph.reversePostOrder = true := solvable.visits
    change placed.visitsKnown placed.flowGraph.reversePostOrder = true
    unfold Body.visitsKnown at visits ⊢
    rw [extend.flowGraph, extend.handlers, known]
    rw [Bool.and_eq_true] at visits
    exact visits.2

/-- Placing a placed scope again looks up nothing unknown and inserts nothing. -/
theorem place_again {stats : Stats}
    (safe : (node body closures).placeDangles config = false)
    (first : body.place config.verify (node body closures).captures = .ok (placed, stats)) :
    (node placed closures).placeDangles config = false ∧ ∃ again, again.Idle ∧
      placed.place config.verify (node placed closures).captures = .ok (placed, again) := by
  have known : body.insnsKnown = true := insnsKnown_of_placeDangles safe
  obtain ⟨frame, accepted⟩ := Body.place_eq_ok first
  obtain ⟨extend, placedKnown, _, _⟩ := Body.insertFrameInsns_settled known frame
  obtain ⟨moved, done, moves, shape, _⟩ := Body.insertFrameInsns_eq_ok frame
  obtain ⟨_, _, stores, _, _⟩ := Body.insertMoves_eq_ok moves
  obtain ⟨entry, setup⟩ := setup_of_placeStores stores
  obtain ⟨_, movedKnown, _, _⟩ := Body.insertMoves_settled known moves
  obtain ⟨visits, movesAgain, frameAgain⟩ := Body.insertFrameInsns_again known frame
  obtain ⟨blocks, _, inside, visited, search, verified⟩ :=
    (placeDangles_iff setup moves frame).mp safe
  -- the second run works on the graph, the effects and the closures of the first
  have vars : placed.vars = body.vars := extend.vars
  have effects := extend.effects (node body closures).captures
  have again : (node placed closures).Solvable entry :=
    Solvable.of_extends ⟨setup, blocks, inside, visited⟩ extend placedKnown
  rw [← captures_of_vars vars] at effects movesAgain frameAgain
  have searchAgain : (placed.effects (node placed closures).captures).needsFrame placed = false →
      placed.moveSearchDangles = false := by
    obtain ⟨more, _, allocs⟩ :=
      Body.allocated_extends movedKnown (body.effects (node body closures).captures)
    rw [← shape] at more allocs
    intro none
    rw [Body.moveSearchDangles_of_moves more.vars (more.moves_of_allocs allocs)]
    refine search ?_
    rw [captures_of_vars vars, extend.effects] at none
    unfold Effects.needsFrame at none ⊢
    rw [more.captured] at none
    exact none
  have safeAgain := (placeDangles_iff again.setup movesAgain frameAgain).mpr
    ⟨again.blocks, placedKnown, inside, again.visits, searchAgain, verified⟩
  exact ⟨safeAgain, { visits := visits }, ⟨rfl, rfl, rfl, rfl⟩,
    Body.place_of_frame frameAgain accepted⟩

theorem isExempt_of_extends (extend : body.Extends placed) : placed.isExempt = body.isExempt := by
  have kind : placed.kind = body.kind := by rw [extend.same]
  have eager : placed.eager = body.eager := by rw [extend.same]
  unfold Body.isExempt Body.hasFlow Layout.entry?
  rw [kind, eager, extend.blocks]

theorem runAlone_again (safe : (node body closures).runAloneDangles config = false) :
    ∃ placed first again, (node body closures).runAlone config = (node placed closures, first) ∧
      (node placed closures).runAloneDangles config = false ∧
      (node placed closures).runAlone config = (node placed closures, again) ∧
      Repeats first again := by
  unfold runAlone Body.run runAloneDangles Scope.body Scope.withBody Scope.closures at *
  dsimp only at safe ⊢
  cases exempt : body.isExempt with
  | true =>
      refine ⟨body, .ok {}, .ok {}, rfl, ?_, ?_, Repeats.ok ⟨rfl, rfl, rfl, rfl⟩⟩
      · rw [exempt]
        rfl
      · rw [exempt]
        rfl
  | false =>
      rw [exempt, Bool.not_false, Bool.true_and] at safe
      cases result : body.place config.verify (node body closures).captures with
      | ok both =>
          obtain ⟨placed, stats⟩ := both
          have known : body.insnsKnown = true := insnsKnown_of_placeDangles safe
          obtain ⟨extend, _, _, _⟩ :=
            Body.insertFrameInsns_settled known (Body.place_eq_ok result).1
          obtain ⟨safeAgain, again, idle, placedAgain⟩ := place_again safe result
          refine ⟨placed, .ok stats, .ok again, rfl, ?_, ?_, Repeats.ok idle⟩
          · rw [safeAgain, Bool.and_false]
          · rw [isExempt_of_extends extend, exempt, placedAgain]
            rfl
      | error cause =>
          cases policy : config.onError with
          | abort =>
              refine ⟨body, .error cause, .error cause, rfl, ?_, ?_, Repeats.error⟩
              · rw [safe, Bool.and_false]
              · rw [exempt, result]
                rfl
          | fallback =>
              have eager : ({ body with eager := true } : Body).isExempt = true := by
                unfold Body.isExempt
                exact Bool.or_true _
              refine ⟨{ body with eager := true }, .ok { fallbacks := 1 }, .ok {}, rfl, ?_, ?_,
                Repeats.ok ⟨rfl, rfl, rfl, rfl⟩⟩
              · rw [eager]
                rfl
              · rw [eager]
                rfl

theorem runAfter_again (safe : (node body closures).runAloneDangles config = false)
    (done more : Stats) (idle : more.Idle) :
    ∃ placed first again,
      runAfter config done (node body closures) = (node placed closures, first) ∧
      (node placed closures).runAloneDangles config = false ∧
      runAfter config more (node placed closures) = (node placed closures, again) ∧
      Repeats first again := by
  obtain ⟨placed, first, again, run, safeAgain, runAgain, repeats⟩ := runAlone_again safe
  unfold runAfter
  rw [run]
  cases repeats with
  | ok alsoIdle =>
      refine ⟨placed, _, _, rfl, safeAgain, ?_, Repeats.ok (idle.add alsoIdle)⟩
      rw [runAgain]
  | error =>
      refine ⟨placed, _, _, rfl, safeAgain, ?_, Repeats.error⟩
      rw [runAgain]

mutual
theorem runTree_again (config : Config) : ∀ s : Scope, s.runTreeDangles config = false →
    ∃ t first again, s.runTree config = (t, first) ∧ t.runTreeDangles config = false ∧
      t.runTree config = (t, again) ∧ Repeats first again
  | node body closures, safe => by
      rw [runTreeDangles] at safe
      rw [Bool.or_eq_false_iff] at safe
      obtain ⟨done, first, again, run, safeForest, runAgain, repeats⟩ :=
        runForest_again config closures safe.1
      rw [run] at safe
      rw [runTree]
      rw [run]
      cases repeats with
      | ok idle =>
          obtain ⟨placed, result, resultAgain, after, safeAfter, afterAgain, repeats⟩ :=
            runAfter_again safe.2 _ _ idle
          refine ⟨node placed done, result, resultAgain, after, ?_, ?_, repeats⟩
          · rw [runTreeDangles]
            rw [runAgain, safeForest, Bool.false_or]
            exact safeAfter
          · rw [runTree]
            rw [runAgain]
            exact afterAgain
      | error =>
          refine ⟨node body done, _, _, rfl, ?_, ?_, Repeats.error⟩
          · rw [runTreeDangles]
            rw [runAgain, safeForest]
            rfl
          · rw [runTree]
            rw [runAgain]

theorem runForest_again (config : Config) : ∀ closures : List Scope,
    runForestDangles config closures = false →
    ∃ done first again, runForest config closures = (done, first) ∧
      runForestDangles config done = false ∧ runForest config done = (done, again) ∧
      Repeats first again
  | [], _ => ⟨[], .ok {}, .ok {}, rfl, rfl, rfl, Repeats.ok ⟨rfl, rfl, rfl, rfl⟩⟩
  | closure :: rest, safe => by
      rw [runForestDangles] at safe
      rw [Bool.or_eq_false_iff] at safe
      obtain ⟨t, first, again, run, safeTree, runAgain, repeats⟩ :=
        runTree_again config closure safe.1
      rw [run] at safe
      rw [runForest]
      rw [run]
      cases repeats with
      | error =>
          refine ⟨t :: rest, _, _, rfl, ?_, ?_, Repeats.error⟩
          · rw [runForestDangles]
            rw [runAgain, safeTree]
            rfl
          · rw [runForest]
            rw [runAgain]
      | ok idle =>
          obtain ⟨done, second, secondAgain, runRest, safeRest, restAgain, repeats⟩ :=
            runForest_again config rest safe.2
          have safeAll : runForestDangles config (t :: done) = false := by
            rw [runForestDangles]
            rw [runAgain, safeTree, Bool.false_or]
            exact safeRest
          rw [runRest]
          cases repeats with
          | ok alsoIdle =>
              refine ⟨t :: done, _, _, rfl, safeAll, ?_, Repeats.ok (idle.add alsoIdle)⟩
              rw [runForest]
              rw [runAgain]
              dsimp only
              rw [restAgain]
          | error =>
              refine ⟨t :: done, _, _, rfl, safeAll, ?_, Repeats.error⟩
              rw [runForest]
              rw [runAgain]
              dsimp only
              rw [restAgain]
end

/-- Running the placement over a scope tree a second time, with the same configuration, leaves the
tree exactly as it is, whatever came of the first run.  After a success the second run succeeds
without inserting or giving up anything; after a failure it fails in the same way. -/
theorem run_again {config : Config} {s t : Scope} {first : Except PlacementError Stats}
    (run : Checked.run config s = .ok (t, first)) :
    ∃ again, Checked.run config t = .ok (t, again) ∧
      (∀ stats, first = .ok stats → ∃ more, again = .ok more ∧
        more.allocs = 0 ∧ more.stores = 0 ∧ more.loads = 0 ∧ more.fallbacks = 0) ∧
      ∀ cause, first = .error cause → again = .error cause := by
  unfold Checked.run Fault.guarded at run
  cases safe : s.runDangles config with
  | true =>
      rw [safe] at run
      cases run
  | false =>
      rw [safe, Bool.not_false, if_pos rfl] at run
      have ran : s.run config = (t, first) := Except.ok.inj run
      have repeated : ∃ again, t.runDangles config = false ∧ t.run config = (t, again) ∧
          Repeats first again := by
        unfold Scope.run at ran ⊢
        unfold runDangles at safe ⊢
        cases covered : config.includeClosures with
        | true =>
            rw [covered, if_pos rfl] at ran safe
            obtain ⟨after, result, again, once, safeAgain, twice, repeats⟩ :=
              runTree_again config s safe
            rw [ran] at once
            cases once
            exact ⟨again, safeAgain, twice, repeats⟩
        | false =>
            rw [covered, if_neg Bool.false_ne_true] at ran safe
            obtain ⟨body, closures⟩ := s
            obtain ⟨placed, result, again, once, safeAgain, twice, repeats⟩ :=
              runAfter_again safe {} {} ⟨rfl, rfl, rfl, rfl⟩
            rw [ran] at once
            cases once
            exact ⟨again, safeAgain, twice, repeats⟩
      obtain ⟨again, safeAgain, ranAgain, repeats⟩ := repeated
      refine ⟨again, ?_, ?_, ?_⟩
      · unfold Checked.run Fault.guarded
        rw [safeAgain, ranAgain]
        rfl
      · rintro stats rfl
        cases repeats with
        | ok idle => exact ⟨_, rfl, idle⟩
      · rintro cause rfl
        cases repeats with
        | error => rfl

end Scope

/-- A closure that writes a local of the enclosing scope in a loop. -/
def counting : Scope :=
  .node
    { name := "counting"
      kind := .closure
      layout := ({} : Layout).appendBlock 0 |>.appendBlock 1 |>.appendInsn 0 0
        |>.appendInsn 1 0 |>.appendInsn 2 1
      handlers := #[none, none]
      insns := #[.call (some 0) (.var 0) "succ" [] none, .branch (.var 0) 0 1, .ret .nil]
      vars := (({} : VarTable).intern (.named "count" 1)).2 } []

/-- A method whose local is counted up by a closure that it passes as a block. -/
def totalling : Scope :=
  .node
    { name := "totalling"
      kind := .method
      layout := ({} : Layout).appendBlock 0 |>.appendInsn 0 0 |>.appendInsn 1 0 |>.appendInsn 2 0
      handlers := #[none]
      insns := #[.copy 0 (.int 0), .call none .selfValue "each" [] (some (.closure 0)),
        .ret (.var 0)]
      vars := (({} : VarTable).intern (.named "count" 0)).2
      captured := IdSet.ofList [0] } [counting]

theorem run_again_totalling :
    ∃ t stats, Checked.run .strict totalling = .ok (t, .ok stats) ∧
      (stats.allocs = 1 ∧ stats.stores = 2 ∧ stats.loads = 2) ∧
      ∃ more, Checked.run .strict t = .ok (t, .ok more) ∧
        more.allocs = 0 ∧ more.stores = 0 ∧ more.loads = 0 ∧ more.fallbacks = 0 := by
  have run : Checked.run .strict totalling =
      .ok ((totalling.run .strict).1,
        .ok { allocs := 1, stores := 2, loads := 2, visits := 10 }) := by rfl
  obtain ⟨again, runs, idle, _⟩ := Scope.run_again run
  obtain ⟨more, rfl, nothing⟩ := idle _ rfl
  exact ⟨_, _, run, ⟨rfl, rfl, rfl⟩, more, runs, nothing⟩

end FramePlacement
