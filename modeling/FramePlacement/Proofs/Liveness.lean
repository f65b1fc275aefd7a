import FramePlacement.Dataflow.Classic
import FramePlacement.Proofs.Backward
import FramePlacement.Proofs.BestSolution
import FramePlacement.Proofs.Candidates
import FramePlacement.Proofs.Exposure
/-!
# What is awaited on the paths ahead

A backward problem that follows variables one by one (`Problem.Tracks`) tells what lies ahead: in
its solved facts something is in question at a point exactly when a path from there comes to an
instruction that asks for it, or to an exit where it is asked for, and everything passed before
leaves it alone (`solved_iff_awaits`).  An instruction that raises is left for the handler of its
block or out of the activation, and its effect is then another one.

Liveness is such a problem: the solved facts hold the variables whose value some path still uses
(`Scope.solve_live`).
-/

set_option autoImplicit false

namespace FramePlacement

/-! ## Paths ahead -/

/-- Control can leave the activation on a path from `start`: from the end of a block, or at a
raising instruction of a block without a handler. -/
inductive Escapes (s : Body) (free : Passing) (start : Point) : Prop where
  | atEnd {b : BlockId} :
      Leads s free start ⟨b, []⟩ → s.leavesAtEnd b = true → Escapes s free start
  | byRaise {b : BlockId} {entry : InsnId × Insn} {rest : Code} :
      Leads s free start ⟨b, entry :: rest⟩ → entry.2.canRaise = true → s.handler? b = none →
      free .raises entry → Escapes s free start

inductive Demands (s : Body) (free ask : Passing) (start : Point) : Prop where
  | complete {b : BlockId} {entry : InsnId × Insn} {rest : Code} :
      Leads s free start ⟨b, entry :: rest⟩ → ask .completes entry → Demands s free ask start
  | raise {b : BlockId} {entry : InsnId × Insn} {rest : Code} :
      Leads s free start ⟨b, entry :: rest⟩ → entry.2.canRaise = true → ask .raises entry →
      Demands s free ask start

/-- Something is asked for on a path ahead, by an instruction or at an exit, and all that is passed
before keeps it. -/
def Awaits (s : Body) (atExit : Prop) (ask keep : Passing) (start : Point) : Prop :=
  Demands s keep ask start ∨ atExit ∧ Escapes s keep start

section Ahead

variable {s : Body} {free ask keep : Passing} {atExit : Prop} {start point : Point}

theorem Leads.escapes (leads : Leads s free start point) (escapes : Escapes s free point) :
    Escapes s free start := by
  cases escapes with
  | atEnd later leaves => exact .atEnd (leads.trans later) leaves
  | byRaise later raises uncaught passes =>
      exact .byRaise (leads.trans later) raises uncaught passes

theorem Leads.demands (leads : Leads s free start point) (demands : Demands s free ask point) :
    Demands s free ask start := by
  cases demands with
  | complete later asks => exact .complete (leads.trans later) asks
  | raise later raises asks => exact .raise (leads.trans later) raises asks

theorem Leads.awaits (leads : Leads s keep start point) (awaits : Awaits s atExit ask keep point) :
    Awaits s atExit ask keep start :=
  awaits.imp leads.demands (And.imp_right leads.escapes)

theorem Leads.reachable (leads : Leads s free start point)
    (reachable : s.flowGraph.Reachable start.block) : s.flowGraph.Reachable point.block := by
  induction leads with
  | here => exact reachable
  | complete _ _ ih => exact ih
  | raise _ _ target _ ih => exact ih.step (IdSet.mem_union.mpr (Or.inr target))
  | edge _ target ih => exact ih.step (IdSet.mem_union.mpr (Or.inl target))

end Ahead

/-! ## Ends of blocks -/

theorem Insn.targets_eq_nil_iff {insn : Insn} (terminates : insn.isTerminator = true) :
    insn.targets = [] ↔ insn.isExit = true := by
  cases insn with
  | branch cond onTrue onFalse =>
      by_cases same : onTrue = onFalse <;> simp [targets, isExit, same]
  | jump dest => simp [targets, isExit]
  | ret value => simp [targets, isExit]
  | raise arg => simp [targets, isExit]
  | _ => cases terminates

namespace Body

variable {s : Body} {b : BlockId}

theorem code_of_not_mem (absent : ¬ b ∈ s.layout.blocks) : s.code b = [] := by
  unfold code
  rw [Layout.insns_of_not_mem absent]
  rfl

theorem succs_isEmpty_iff :
    (s.flowGraph.succs b).isEmpty = true ↔ s.flowTargets b = [] := by
  rw [IdSet.isEmpty_iff, List.eq_nil_iff_forall_not_mem]
  refine forall_congr' fun c => not_congr ?_
  rw [mem_succs_flowGraph]
  refine and_iff_right_of_imp fun target => ?_
  by_contra absent
  have none : s.terminator? b = none :=
    terminator?_of_running (by rw [code_of_not_mem absent]; simp)
  unfold flowTargets at target
  rw [none, nextBlock?_of_not_mem absent] at target
  cases target

theorem endsInHandledRaise_eq (s : Body) (b : BlockId) : s.endsInHandledRaise b =
    ((s.handler? b).isSome && (s.terminator? b).any Insn.isRaise) := by
  unfold endsInHandledRaise terminator?
  cases s.lastInsn? b with
  | none => rfl
  | some insn => cases insn <;> rfl

/-- Control leaves the activation at the end of a block when it goes nowhere from there, not even to
a handler. -/
theorem leavesAtEnd_eq (s : Body) (b : BlockId) : s.leavesAtEnd b =
    ((s.flowGraph.succs b).isEmpty && !s.endsInHandledRaise b) := by
  rw [Bool.eq_iff_iff, Bool.and_eq_true, succs_isEmpty_iff, endsInHandledRaise_eq]
  unfold leavesAtEnd flowTargets
  cases ends : s.terminator? b with
  | none => simp
  | some insn =>
      have leads := Insn.targets_eq_nil_iff (terminator?_eq_some_iff.mp ends).1
      simp [leads, or_comm]

end Body

namespace Problem

variable {F : Type} {p : Problem F} {s : Body} {bad : F → Prop} {ask keep : Passing}
  {sol : Solution F} {b : BlockId} {above rest : Code} {one : InsnId × Insn}

/-! ## One instruction against the flow -/

theorem Tracks.before (tracks : p.Tracks s bad ask keep) (inside : one ∈ s.allCode)
    (received fact : F) : bad (p.before received fact one) ↔
      (ask .completes one ∨ bad fact ∧ keep .completes one) ∨
        one.2.canRaise = true ∧ (ask .raises one ∨ bad received ∧ keep .raises one) := by
  simp only [Problem.before]
  cases raises : one.2.canRaise with
  | false => simpa using tracks.transfer one inside fact
  | true =>
      rw [if_pos rfl, tracks.meet, tracks.transfer one inside, tracks.transferRaise one inside]
      simp

theorem Tracks.joinBackward (tracks : p.Tracks s bad ask keep) :
    bad (p.joinBackward s s.flowGraph sol b) ↔
      bad p.boundary ∧ s.leavesAtEnd b = true ∨
        ∃ c ∈ s.flowGraph.succs b, bad (sol.outs.get c) := by
  simp only [Problem.joinBackward]
  rw [tracks.meetAll, ← s.leavesAtEnd_eq b]
  cases s.leavesAtEnd b with
  | false => simp [tracks.initial]
  | true => simp

/-! ## Solved facts come from paths -/

/-- The facts above the blocks are only in question where a path ahead shows why. -/
def Awaited (p : Problem F) (s : Body) (bad : F → Prop) (ask keep : Passing) (sol : Solution F) :
    Prop :=
  ∀ b, bad (sol.outs.get b) → Awaits s (bad p.boundary) ask keep ⟨b, s.code b⟩

theorem Awaited.bottom (awaited : p.Awaited s bad ask keep sol) (tracks : p.Tracks s bad ask keep)
    (now : bad (p.joinBackward s s.flowGraph sol b)) :
    Awaits s (bad p.boundary) ask keep ⟨b, []⟩ := by
  rcases tracks.joinBackward.mp now with ⟨boundary, leaves⟩ | ⟨c, target, out⟩
  · exact Or.inr ⟨boundary, .atEnd .here leaves⟩
  · exact (Leads.here.edge target).awaits (awaited c out)

theorem Awaited.received (awaited : p.Awaited s bad ask keep sol)
    (code : s.code b = above ++ one :: rest) (raises : one.2.canRaise = true)
    (kept : keep .raises one) (now : bad (p.handlerFact s sol b)) :
    Awaits s (bad p.boundary) ask keep ⟨b, one :: rest⟩ := by
  unfold handlerFact at now
  split at now
  · next handler handled =>
      have target := Body.mem_excSuccs_of_code code raises handled
      exact (Leads.here.raise raises target kept).awaits (awaited handler now)
  · next uncaught => exact Or.inr ⟨now, .byRaise .here raises uncaught kept⟩

theorem Awaited.beforeAll (awaited : p.Awaited s bad ask keep sol)
    (tracks : p.Tracks s bad ask keep) {fact : F}
    (bottom : bad fact → Awaits s (bad p.boundary) ask keep ⟨b, []⟩)
    (code : s.code b = above ++ rest) (now : bad (p.beforeAll (p.handlerFact s sol b) rest fact)) :
    Awaits s (bad p.boundary) ask keep ⟨b, rest⟩ := by
  induction rest generalizing above with
  | nil => exact bottom now
  | cons one rest ih =>
      rw [beforeAll_cons, tracks.before (Body.mem_allCode_of_code code)] at now
      rcases now with (asks | ⟨later, kept⟩) | ⟨raises, asks | ⟨received, kept⟩⟩
      · exact Or.inl (.complete .here asks)
      · have below := ih (code.trans (List.append_cons _ _ _)) later
        exact (Leads.here.complete kept).awaits below
      · exact Or.inl (.raise .here raises asks)
      · exact awaited.received code raises kept received

/-! ## Paths carry solved facts back -/

section Carried

variable {entry : BlockId}

def BadAbove (p : Problem F) (s : Body) (bad : F → Prop) (sol : Solution F) (point : Point) :
    Prop :=
  bad (p.beforeAll (p.handlerFact s sol point.block) point.rest (sol.ins.get point.block))

theorem Settled.badAbove_top (settled : p.Settled s s.flowGraph entry sol b)
    (direction : p.direction = .backward) :
    p.BadAbove s bad sol ⟨b, s.code b⟩ ↔ bad (sol.outs.get b) := by
  have ins := settled.ins
  have outs := settled.outs
  simp only [newIn, newOut, direction] at ins outs
  rw [BadAbove, outs, ins]

theorem Settled.badAbove_bottom (settled : p.Settled s s.flowGraph entry sol b)
    (direction : p.direction = .backward) (tracks : p.Tracks s bad ask keep) :
    p.BadAbove s bad sol ⟨b, []⟩ ↔ bad p.boundary ∧ s.leavesAtEnd b = true ∨
      ∃ c ∈ s.flowGraph.succs b, bad (sol.outs.get c) := by
  have ins := settled.ins
  simp only [newIn, direction] at ins
  rw [← tracks.joinBackward, ← ins]
  rfl

theorem badAbove_cons (tracks : p.Tracks s bad ask keep) (inside : one ∈ s.allCode) :
    p.BadAbove s bad sol ⟨b, one :: rest⟩ ↔
      (ask .completes one ∨ p.BadAbove s bad sol ⟨b, rest⟩ ∧ keep .completes one) ∨
        one.2.canRaise = true ∧
          (ask .raises one ∨ bad (p.handlerFact s sol b) ∧ keep .raises one) := by
  rw [BadAbove, beforeAll_cons]
  exact tracks.before inside _ _

theorem handlerFact_eq_boundary (uncaught : s.handler? b = none) :
    p.handlerFact s sol b = p.boundary := by
  unfold handlerFact
  rw [uncaught]

theorem handlerFact_eq_outs {handler : BlockId} (handled : s.handler? b = some handler) :
    p.handlerFact s sol b = sol.outs.get handler := by
  unfold handlerFact
  rw [handled]

theorem badAbove_of_leads (tracks : p.Tracks s bad ask keep) (direction : p.direction = .backward)
    (settled : ∀ c, s.flowGraph.Reachable c → p.Settled s s.flowGraph entry sol c)
    {start point : Point} (inside : ∃ above, s.code start.block = above ++ start.rest)
    (reachable : s.flowGraph.Reachable start.block) (leads : Leads s keep start point)
    (now : p.BadAbove s bad sol point) : p.BadAbove s bad sol start := by
  induction leads with
  | here => exact now
  | @complete c one rest leads kept ih =>
      obtain ⟨above, code⟩ := suffix_of_leads inside leads
      apply ih
      rw [badAbove_cons tracks (Body.mem_allCode_of_code code)]
      exact Or.inl (Or.inr ⟨now, kept⟩)
  | @raise c handler one rest leads raises target kept ih =>
      obtain ⟨above, code⟩ := suffix_of_leads inside leads
      have next := (leads.raise raises target kept).reachable reachable
      have handled := (Body.mem_excSuccs_flowGraph.mp target).2.2
      have out := ((settled handler next).badAbove_top direction).mp now
      apply ih
      rw [badAbove_cons tracks (Body.mem_allCode_of_code code), handlerFact_eq_outs handled]
      exact Or.inr ⟨raises, Or.inr ⟨out, kept⟩⟩
  | @edge c d leads target ih =>
      have next := (leads.edge target).reachable reachable
      have out := ((settled d next).badAbove_top direction).mp now
      apply ih
      rw [(settled c (leads.reachable reachable)).badAbove_bottom direction tracks]
      exact Or.inr ⟨d, target, out⟩

theorem badAbove_of_awaits (tracks : p.Tracks s bad ask keep)
    (direction : p.direction = .backward)
    (settled : ∀ c, s.flowGraph.Reachable c → p.Settled s s.flowGraph entry sol c)
    {start : Point} (inside : ∃ above, s.code start.block = above ++ start.rest)
    (reachable : s.flowGraph.Reachable start.block)
    (awaits : Awaits s (bad p.boundary) ask keep start) : p.BadAbove s bad sol start := by
  have back : ∀ {point : Point}, Leads s keep start point → p.BadAbove s bad sol point →
      p.BadAbove s bad sol start :=
    fun leads => badAbove_of_leads tracks direction settled inside reachable leads
  rcases awaits with demands | ⟨boundary, escapes⟩
  · cases demands with
    | complete leads asks =>
        obtain ⟨above, code⟩ := suffix_of_leads inside leads
        exact back leads ((badAbove_cons tracks (Body.mem_allCode_of_code code)).mpr
          (Or.inl (Or.inl asks)))
    | raise leads raises asks =>
        obtain ⟨above, code⟩ := suffix_of_leads inside leads
        exact back leads ((badAbove_cons tracks (Body.mem_allCode_of_code code)).mpr
          (Or.inr ⟨raises, Or.inl asks⟩))
  · cases escapes with
    | atEnd leads leaves =>
        have last := settled _ (leads.reachable reachable)
        exact back leads ((last.badAbove_bottom direction tracks).mpr
          (Or.inl ⟨boundary, leaves⟩))
    | byRaise leads raises uncaught kept =>
        obtain ⟨above, code⟩ := suffix_of_leads inside leads
        refine back leads ((badAbove_cons tracks (Body.mem_allCode_of_code code)).mpr
          (Or.inr ⟨raises, Or.inr ⟨?_, kept⟩⟩))
        rwa [handlerFact_eq_boundary uncaught]

end Carried

/-! ## The meaning of a solved fact -/

section Run

variable [DecidableEq F] {Fact : F → Prop} {rank : F → Nat} {entry : BlockId}

theorem Awaited.advance {waiting : List BlockId} (awaited : p.Awaited s bad ask keep sol)
    (tracks : p.Tracks s bad ask keep) (direction : p.direction = .backward) :
    p.Awaited s bad ask keep (p.advance s s.flowGraph entry sol b waiting) := by
  intro c now
  rw [outs_advance] at now
  split at now
  · next same =>
      subst same
      simp only [newOut, direction] at now
      exact awaited.beforeAll tracks (awaited.bottom tracks) (List.nil_append _).symm now
  · exact awaited c now

/-- In the solved facts of a backward problem something is in question above some code exactly when
a path ahead asks for it. -/
theorem solved_iff_awaits (tracks : p.Tracks s bad ask keep) (mono : p.MonotoneOn s Fact)
    (order : p.Semilattice Fact rank) (direction : p.direction = .backward)
    (setup : s.checkSetup s.flowGraph = .ok entry) (listed : b ∈ s.layout.blocks)
    (code : s.code b = above ++ rest) :
    p.BadAbove s bad (p.solved s s.flowGraph entry) ⟨b, rest⟩ ↔
      Awaits s (bad p.boundary) ask keep ⟨b, rest⟩ := by
  have steady := mono.steady_flowGraph order setup
  have reachable := (Body.checkSetup_eq_ok_iff.mp setup).2.2 b listed
  have settled : ∀ c, s.flowGraph.Reachable c →
      p.Settled s s.flowGraph entry (p.solved s s.flowGraph entry) c :=
    fun _ found => solved_settled order steady found
  constructor
  · -- every visit keeps the facts awaited, whether or not it was the last one of its block
    have awaited : p.Awaited s bad ask keep (p.solved s s.flowGraph entry) :=
      solved_rule order steady (fun _ now => absurd now tracks.initial)
        fun _ _ _ _ _ holds => holds.advance tracks direction
    refine awaited.beforeAll tracks (fun bottom => ?_) code
    have ins := (settled b reachable).ins
    simp only [newIn, direction] at ins
    rw [ins] at bottom
    exact awaited.bottom tracks bottom
  · exact badAbove_of_awaits tracks direction settled ⟨above, code⟩ reachable

end Run

theorem factAt_eq_beforeAll (direction : p.direction = .backward)
    (code : s.code b = above ++ one :: rest) :
    p.factAt s sol one.1 = p.beforeAll (p.handlerFact s sol b) rest (sol.ins.get b) := by
  have inside := (Body.mem_code_iff.mp (Body.mem_code_of_split code)).1
  have distinct : ((s.code b).reverse.map Prod.fst).Nodup := by
    rw [List.map_reverse, List.nodup_reverse]
    exact s.code_nodup b
  have split : (s.code b).reverse = rest.reverse ++ one :: above.reverse := by
    rw [code]
    simp
  simp only [factAt, Layout.blockOf?_eq_some_iff.mpr inside, direction]
  rw [Body.takeWhile_ne distinct split]
  rfl

end Problem

/-! ## Live variables -/

namespace Classic

variable {s : Body} {boundary fact : IdSet} {v : VarId} {point : Point}

/-- Passing an instruction leaves the value of a variable alone; one that raises does not write its
result. -/
def Spares (v : VarId) : Passing
  | .completes, entry => entry.2.result? ≠ some v
  | .raises, _ => True

/-- Some path ahead uses the value that `v` has at a point, or takes it to an exit where the
boundary has `v`. -/
def LiveAt (s : Body) (boundary : IdSet) (v : VarId) (point : Point) : Prop :=
  (∃ b entry rest, Leads s (Spares v) point ⟨b, entry :: rest⟩ ∧ v ∈ entry.2.usedVars) ∨
    v ∈ boundary ∧ Escapes s (Spares v) point

theorem liveAt_iff_awaits : LiveAt s boundary v point ↔
    Awaits s (v ∈ boundary) (fun _ entry => v ∈ entry.2.usedVars) (Spares v) point := by
  refine or_congr_left ⟨?_, ?_⟩
  · rintro ⟨b, entry, rest, leads, uses⟩
    exact .complete leads uses
  · rintro (⟨leads, uses⟩ | ⟨leads, _, uses⟩)
    · exact ⟨_, _, _, leads, uses⟩
    · exact ⟨_, _, _, leads, uses⟩

theorem mem_await_iff {insn : Insn} :
    v ∈ await insn fact ↔ v ∈ insn.usedVars ∨ v ∈ fact ∧ insn.result? ≠ some v := by
  unfold await
  rw [IdSet.mem_insertAll]
  cases insn.result? with
  | none => simp
  | some w => simp [and_comm, eq_comm]

theorem live_tracks (s : Body) (boundary : IdSet) (v : VarId) :
    (live s boundary).Tracks s (v ∈ ·) (fun _ entry => v ∈ entry.2.usedVars) (Spares v) where
  initial := IdSet.not_mem_empty v
  meet _ _ := IdSet.mem_union
  transfer _ _ _ := mem_await_iff
  transferRaise _ _ _ := by
    simp only [live, Spares, IdSet.mem_insertAll, and_true]

theorem mentioned_of_mem_usedVars {one : InsnId × Insn} (inside : one ∈ s.allCode)
    (uses : v ∈ one.2.usedVars) : v ∈ mentioned s ∪ boundary := by
  have listed : v ∈ one.2.usedVars ++ one.2.result?.toList := List.mem_append_left _ uses
  have here : v ∈ mentioned s :=
    IdSet.mem_ofList.mpr (List.mem_flatMap.mpr ⟨one, inside, listed⟩)
  exact IdSet.mem_union.mpr (Or.inl here)

theorem live_semilattice (s : Body) (boundary : IdSet) :
    (live s boundary).Semilattice (IdSet.Among (mentioned s ∪ boundary))
      fun fact => (mentioned s ∪ boundary).size - fact.size :=
  Problem.semilattice_union rfl rfl (fun _ member => IdSet.mem_union.mpr (Or.inr member)) rfl

section Effect

variable {f : IdSet → IdSet} {produced kept : VarId → Prop} {a b bound : IdSet}

theorem among_of_effect (effect : ∀ v x, v ∈ f x ↔ produced v ∨ v ∈ x ∧ kept v)
    (inside : ∀ v, produced v → v ∈ bound) (among : IdSet.Among bound a) :
    IdSet.Among bound (f a) :=
  fun v now => ((effect v a).mp now).elim (inside v) fun old => among v old.1

theorem union_eq_left_of_effect (effect : ∀ v x, v ∈ f x ↔ produced v ∨ v ∈ x ∧ kept v)
    (below : a ∪ b = a) : f a ∪ f b = f a := by
  have more := IdSet.union_eq_left_iff.mp below
  refine IdSet.union_eq_left_iff.mpr fun v now => (effect v a).mpr ?_
  exact ((effect v b).mp now).imp_right (And.imp_left (more v))

end Effect

theorem live_monotoneOn (s : Body) (boundary : IdSet) :
    (live s boundary).MonotoneOn s (IdSet.Among (mentioned s ∪ boundary)) where
  transfer_fact inside among := among_of_effect
    (fun v => (live_tracks s boundary v).transfer _ inside)
    (fun _ uses => mentioned_of_mem_usedVars inside uses) among
  transfer_mono inside _ _ below := union_eq_left_of_effect
    (fun v => (live_tracks s boundary v).transfer _ inside) below
  raise_fact inside among := among_of_effect
    (fun v => (live_tracks s boundary v).transferRaise _ inside)
    (fun _ uses => mentioned_of_mem_usedVars inside uses) among
  raise_mono inside _ _ below := union_eq_left_of_effect
    (fun v => (live_tracks s boundary v).transferRaise _ inside) below

end Classic

/-- The solver finds the live variables.  The solution of the liveness problem holds a variable
above an instruction exactly when some path from there uses its value, or takes it to an exit where
it is in the boundary; below the instruction and at both ends of every block it is the same. -/
theorem Scope.solve_live (s : Scope) {entry : BlockId}
    (setup : s.body.checkSetup s.body.flowGraph = .ok entry) (boundary : IdSet) :
    ∃ sol, (Classic.live s.body boundary).solve s.body s.body.flowGraph = .ok sol ∧
      (Classic.live s.body boundary).RestsIn s.body entry sol ∧
      (∀ b above one rest, s.body.code b = above ++ one :: rest → ∀ v,
        (v ∈ (Classic.live s.body boundary).before
              ((Classic.live s.body boundary).handlerFact s.body sol b)
              ((Classic.live s.body boundary).factAt s.body sol one.1) one ↔
            Classic.LiveAt s.body boundary v ⟨b, one :: rest⟩) ∧
          (v ∈ (Classic.live s.body boundary).factAt s.body sol one.1 ↔
            Classic.LiveAt s.body boundary v ⟨b, rest⟩)) ∧
      ∀ b ∈ s.body.layout.blocks, ∀ v,
        (v ∈ sol.outs.get b ↔ Classic.LiveAt s.body boundary v ⟨b, s.body.code b⟩) ∧
          (v ∈ sol.ins.get b ↔ Classic.LiveAt s.body boundary v ⟨b, []⟩) := by
  have order := Classic.live_semilattice s.body boundary
  have mono := Classic.live_monotoneOn s.body boundary
  have steady := mono.steady_flowGraph order setup
  have meaning : ∀ {b : BlockId} {above rest : Code} (v : VarId), b ∈ s.body.layout.blocks →
      s.body.code b = above ++ rest →
      ((Classic.live s.body boundary).BadAbove s.body (v ∈ ·)
          ((Classic.live s.body boundary).solved s.body s.body.flowGraph entry) ⟨b, rest⟩ ↔
        Classic.LiveAt s.body boundary v ⟨b, rest⟩) := fun v listed code =>
    (Problem.solved_iff_awaits (Classic.live_tracks s.body boundary v) mono order rfl setup listed
      code).trans Classic.liveAt_iff_awaits.symm
  refine ⟨_, Problem.solve_eq_solved setup, Problem.restsIn_solved order steady, ?_, ?_⟩
  · intro b above one rest code v
    have listed := Body.mem_blocks_of_code code
    rw [Problem.factAt_eq_beforeAll rfl code, ← Problem.beforeAll_cons]
    exact ⟨meaning v listed code, meaning v listed (code.trans (List.append_cons _ _ _))⟩
  · intro b listed v
    have reachable := (Body.checkSetup_eq_ok_iff.mp setup).2.2 b listed
    have settled := Problem.solved_settled order steady reachable
    have top := meaning v listed (List.nil_append _).symm
    exact ⟨(settled.badAbove_top rfl).symm.trans top, meaning v listed (List.append_nil _).symm⟩

/-- What was found stays live above the call that fetches again: when fetching fails, the handler
notes it. -/
theorem solve_live_retrying :
    retrying.body.checkSetup retrying.body.flowGraph = .ok 0 ∧
      ∃ sol, (Classic.live retrying.body ∅).solve retrying.body retrying.body.flowGraph = .ok sol ∧
        0 ∈ sol.outs.get 0 ∧ Classic.LiveAt retrying.body ∅ 0 ⟨0, retrying.body.code 0⟩ := by
  have setup : retrying.body.checkSetup retrying.body.flowGraph = .ok 0 := by decide
  obtain ⟨sol, solves, _, _, blocks⟩ := retrying.solve_live setup ∅
  have start : Leads retrying.body (Classic.Spares 0) ⟨0, retrying.body.code 0⟩
      ⟨0, (0, .call (some 0) .selfValue "fetch" [] none) :: [(1, .branch (.var 0) 2 0)]⟩ :=
    Leads.here
  have caught : Leads retrying.body (Classic.Spares 0) ⟨0, retrying.body.code 0⟩
      ⟨1, retrying.body.code 1⟩ := start.raise rfl (by decide) trivial
  have receiving : Classic.Spares 0 .completes (2, .receiveException 1) := by
    simp [Classic.Spares, Insn.result?]
  have noting : Leads retrying.body (Classic.Spares 0) ⟨0, retrying.body.code 0⟩
      ⟨1, (3, .call none .selfValue "note" [.var 0] none) :: [(4, .jump 0)]⟩ :=
    caught.complete receiving
  have live : Classic.LiveAt retrying.body ∅ 0 ⟨0, retrying.body.code 0⟩ :=
    Or.inl ⟨_, _, _, noting, by decide⟩
  exact ⟨setup, sol, solves, ((blocks 0 (by decide) 0).1).mpr live, live⟩

end FramePlacement
