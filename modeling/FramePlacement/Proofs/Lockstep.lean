import FramePlacement.Proofs.Agreement
/-!
# Two machines in lockstep

The plain machine runs a scope and the split machine runs an extension of it in which nothing is
due.  Frame instructions keep the agreement of the two memories, and any other instruction finds the
same operands and the same observed variables in both, so the machines go on together
(`advance_matches`).  Their traces are equal whatever the world does (`runFrom_eq`).
-/

set_option autoImplicit false

namespace FramePlacement

/-- `t` is `s` with frame instructions that leave nothing due, and control is in order. -/
structure Effects.Serves (e : Effects) (s t : Body) : Prop where
  extend : s.Extends t
  bare : ∀ entry ∈ s.allCode, entry.2.isFrameInsn = false
  covers : e.Covers t
  orderly : t.Orderly

/-- Two activations at the same point, up to frame instructions, whose memories agree. -/
structure Related {V : Type} (e : Effects) (s t : Body) (x : State (VarId → V) V)
    (y : State (Split V) V) : Prop where
  point : x.point = s.shadow y.point
  exception : x.exception = y.exception
  events : x.events = y.events
  listed : y.point.block ∈ t.layout.blocks
  inside : ∃ above, t.code y.point.block = above ++ y.point.rest ∧
    ∀ entry ∈ above, entry.2.isTerminator = false
  agrees : e.Agrees t y.point x.memory y.memory

inductive Matches {V : Type} (e : Effects) (s t : Body) :
    Outcome (VarId → V) V → Outcome (Split V) V → Prop where
  | goes {x : State (VarId → V) V} {y : State (Split V) V} :
      Related e s t x y → Matches e s t (.goes x) (.goes y)
  | ends {trace : Trace V} : Matches e s t (.ends trace) (.ends trace)

/-! ## What both machines see -/

section Seen

variable {V : Type} {world : World V} {e : Effects} {s : Body} {values : VarId → V} {m : Split V}

theorem shown_eq {vars : IdSet} (same : ∀ v ∈ vars, m.frame v = values v) :
    (plainMachine world e).shown values vars = (splitMachine world e).shown m vars := by
  unfold Machine.shown
  refine List.map_congr_left fun v member => ?_
  change (v, values v) = (v, m.frame v)
  rw [same v (IdSet.mem_toList.mp member)]

theorem leave_eq (same : ∀ v ∈ e.exitObserved, m.frame v = values v) (events : List (Event V))
    (outcome : Except V V) : (plainMachine world e).leave values events outcome =
      (splitMachine world e).leave m events outcome := by
  have left : (plainMachine world e).shown values (plainMachine world e).effects.exitObserved =
      (splitMachine world e).shown m (splitMachine world e).effects.exitObserved := shown_eq same
  unfold Machine.leave
  rw [left]

variable {b : BlockId} {above rest : Code} {entry : InsnId × Insn}

theorem Insn.usedVars_of_plain {insn : Insn} (plain : insn.isFrameInsn = false) :
    insn.usedVars = insn.operands.flatMap Operand.vars := by
  cases insn with
  | storeFrame _ => cases plain
  | _ => rfl

theorem eval_eq (covers : e.Covers s) (code : s.code b = above ++ entry :: rest)
    (agrees : e.Agrees s ⟨b, entry :: rest⟩ values m) (plain : entry.2.isFrameInsn = false)
    {op : Operand} (member : op ∈ entry.2.operands) :
    (plainMachine world e).eval values op = (splitMachine world e).eval m op := by
  refine Operand.eval_congr fun v inside => ?_
  have used : v ∈ entry.2.usedVars := by
    rw [Insn.usedVars_of_plain plain]
    exact List.mem_flatMap.mpr ⟨op, member, inside⟩
  exact (agrees.slot_of_use covers code plain used).symm

theorem event_eq (covers : e.Covers s) (code : s.code b = above ++ entry :: rest)
    (agrees : e.Agrees s ⟨b, entry :: rest⟩ values m) (plain : entry.2.isFrameInsn = false) :
    (plainMachine world e).event values entry = (splitMachine world e).event m entry := by
  have operands : entry.2.operands.map ((plainMachine world e).eval values) =
      entry.2.operands.map ((splitMachine world e).eval m) :=
    List.map_congr_left fun op member => eval_eq covers code agrees plain member
  have observed : (plainMachine world e).shown values (e.observed.get entry.1) =
      (splitMachine world e).shown m (e.observed.get entry.1) :=
    shown_eq fun v member => agrees.frame_of_observed covers code member
  unfold Machine.event
  rw [operands]
  exact congrArg (Event.mk entry.1 _) observed

end Seen

/-! ## What instructions do to both memories -/

section Done

variable {V : Type} {world : World V} {e : Effects} {values : VarId → V} {m : Split V}
  {i : InsnId} {insn : Insn}

theorem completes_of_none (none : insn.result? = none) :
    e.Completes (i, insn) values values m m where
  result v result := by
    rw [none] at result
    cases result
  slot _ _ := rfl
  value _ _ _ := rfl
  frame _ _ same := same

theorem completes_of_write {dst : VarId} (result : insn.result? = some dst) (value : V) :
    e.Completes (i, insn) values ((plainMemory V).write values dst value) m
      ((splitMemory V).write m dst value) where
  result v same := by
    rw [result] at same
    cases same
    change Function.update m.slot dst value dst = Function.update values dst value dst
    rw [Function.update_self, Function.update_self]
  slot v differs := by
    have other : v ≠ dst := fun same => differs (same ▸ result)
    exact Function.update_of_ne other value m.slot
  value v differs _ := by
    have other : v ≠ dst := fun same => differs (same ▸ result)
    exact Function.update_of_ne other value values
  frame v differs same := by
    have other : v ≠ dst := fun same => differs (same ▸ result)
    change m.frame v = Function.update values dst value v
    rw [Function.update_of_ne other, same]

theorem replaced_writes_of_not_mem {M : Type} {k : Machine M V} {reply : Reply V} {v : VarId}
    (kept : ¬ v ∈ k.effects.clobbered.get i) (values : VarId → V) :
    replaced values (k.writes i reply) v = values v := by
  unfold replaced Machine.writes
  rw [if_neg kept]
  rfl

theorem raises_of_none (entry : InsnId × Insn) : e.Raises entry values values m m where
  slot := rfl
  value _ _ := rfl
  frame _ same := same

theorem raises_of_call (world : World V) (call : insn.isCall = true) (reply : Reply V) :
    e.Raises (i, insn) values
      ((plainMemory V).overwrite values ((plainMachine world e).writes i reply)) m
      ((splitMemory V).overwrite m ((splitMachine world e).writes i reply)) where
  slot := rfl
  value v kept := replaced_writes_of_not_mem (fun clobbers => kept ⟨call, clobbers⟩) values
  frame v same := by
    change ((splitMachine world e).writes i reply v).getD (m.frame v) = _
    rw [same]
    rfl

theorem completes_of_call {dst : Option VarId} {receiver : Operand} {method : String}
    {args : List Operand} {block : Option Operand} (reply : Reply V) (value : V) :
    e.Completes (i, .call dst receiver method args block) values
      ((plainMachine world e).writeResult
        ((plainMemory V).overwrite values ((plainMachine world e).writes i reply)) dst value) m
      ((splitMachine world e).writeResult
        ((splitMemory V).overwrite m ((splitMachine world e).writes i reply)) dst value) := by
  have nested : e.Raises (i, .call dst receiver method args block) values _ m _ :=
    raises_of_call world rfl reply
  cases dst with
  | none =>
      refine ⟨?_, ?_, ?_, ?_⟩
      · intro v result
        cases result
      · intro v _
        rfl
      · intro v differs kept
        exact nested.value v fun outdates => kept ⟨outdates.1, outdates.2, differs⟩
      · intro v _ same
        exact nested.frame v same
  | some dst =>
      have written : e.Completes (i, .call (some dst) receiver method args block)
          ((plainMemory V).overwrite values ((plainMachine world e).writes i reply)) _
          ((splitMemory V).overwrite m ((splitMachine world e).writes i reply)) _ :=
        completes_of_write rfl value
      refine ⟨written.result, written.slot, ?_, ?_⟩
      · intro v differs kept
        rw [← nested.value v fun outdates => kept ⟨outdates.1, outdates.2, differs⟩]
        exact written.value v differs kept
      · intro v differs same
        exact written.frame v differs (nested.frame v same)

end Done

/-! ## Both machines go on together -/

theorem Body.mem_succs_of_target {s : Body} {b dest : BlockId} {above : Code}
    {entry : InsnId × Insn} (code : s.code b = above ++ [entry])
    (ends : entry.2.isTerminator = true) (target : dest ∈ entry.2.targets) :
    dest ∈ s.flowGraph.succs b := by
  have last : s.terminator? b = some entry.2 := by
    unfold Body.terminator? Body.lastInsn?
    rw [code, List.getLast?_concat, Option.map_some, Option.filter_some, if_pos ends]
  refine Body.mem_succs_flowGraph.mpr ⟨Body.mem_blocks_of_code code, ?_⟩
  unfold Body.flowTargets
  rw [last]
  exact target

theorem Insn.mem_targets_of_branch {cond : Operand} {onTrue onFalse : BlockId} (taken : Bool) :
    (if taken then onTrue else onFalse) ∈ (Insn.branch cond onTrue onFalse).targets := by
  unfold Insn.targets
  by_cases same : onTrue = onFalse
  · simp [same]
  · cases taken with
    | true => simp [same]
    | false => simp [same]

section Lockstep

variable {V : Type} {world : World V} {e : Effects} {s t : Body} {values next : VarId → V}
  {m after : Split V} {b : BlockId} {above rest : Code} {entry : InsnId × Insn}

theorem Matches.block (serves : e.Serves s t) {c : BlockId} (listed : c ∈ t.layout.blocks)
    (agrees : e.Agrees t ⟨c, t.code c⟩ values m) (exception : V) (events : List (Event V)) :
    Matches e s t (.goes ⟨⟨c, s.code c⟩, values, exception, events⟩)
      (.goes ⟨⟨c, t.code c⟩, m, exception, events⟩) :=
  Matches.goes
    { point := (serves.extend.shadow_code c).symm
      exception := rfl
      events := rfl
      listed := listed
      inside := ⟨[], rfl, fun _ none => absurd none List.not_mem_nil⟩
      agrees := agrees }

variable (serves : e.Serves s t) (code : t.code b = above ++ entry :: rest)
  (agrees : e.Agrees t ⟨b, entry :: rest⟩ values m) (plain : entry.2.isFrameInsn = false)
include serves code agrees plain

theorem Matches.complete (running : ∀ other ∈ above, other.2.isTerminator = false)
    (runsOn : entry.2.isTerminator = false) (completes : e.Completes entry values next m after)
    (exception : V) (events : List (Event V)) :
    Matches e s t (.goes ⟨⟨b, rest.filter s.owns⟩, next, exception, events⟩)
      (.goes ⟨⟨b, rest⟩, after, exception, events⟩) := by
  have inside : t.code b = (above ++ [entry]) ++ rest :=
    code.trans (List.append_cons _ _ _)
  refine Matches.goes
    { point := rfl
      exception := rfl
      events := rfl
      listed := Body.mem_blocks_of_code code
      inside := ⟨above ++ [entry], inside, fun other member => ?_⟩
      agrees := agrees.complete serves.covers code plain completes }
  rcases List.mem_append.mp member with before | here
  · exact running other before
  · rw [List.mem_singleton.mp here]
    exact runsOn

theorem Matches.jump {dest : BlockId} (target : dest ∈ entry.2.targets)
    (ends : entry.2.isTerminator = true) (none : entry.2.result? = none) (exception : V)
    (events : List (Event V)) :
    Matches e s t (.goes ⟨⟨dest, s.code dest⟩, values, exception, events⟩)
      (.goes ⟨⟨dest, t.code dest⟩, m, exception, events⟩) := by
  have bottom : rest = [] := serves.orderly.last code ends
  subst bottom
  have behind : e.Agrees t ⟨b, []⟩ values m :=
    agrees.complete serves.covers code plain (completes_of_none none)
  have edge := Body.mem_succs_of_target code ends target
  exact Matches.block serves (serves.orderly.target code target) (behind.edge edge) exception events

theorem Matches.raise (raises : entry.2.canRaise = true)
    (sends : e.Raises entry values next m after)
    (leaving : t.handler? b = none → ∀ v ∈ e.exitObserved, e.Observes t v ⟨b, entry :: rest⟩)
    (previous exception : V) (events : List (Event V)) (below : Code) :
    Matches e s t
      ((plainMachine world e).follow s b below previous events (next, .raise exception))
      ((splitMachine world e).follow t b rest previous events (after, .raise exception)) := by
  have same := serves.extend.handler? b
  unfold Machine.follow
  cases handled : t.handler? b with
  | some handler =>
      rw [handled] at same
      simp only [← same]
      have listed := serves.orderly.handler (Body.mem_blocks_of_code code) handled
      have behind := agrees.raise serves.covers code plain raises handled sends
      exact Matches.block serves listed behind exception events
  | none =>
      rw [handled] at same
      simp only [← same]
      rw [leave_eq]
      · exact Matches.ends
      · intro v left
        apply sends.frame v
        exact agrees.frame_of_observes serves.covers (serves.covers.leaving v left)
          (leaving handled v left)

theorem follow_matches (running : ∀ other ∈ above, other.2.isTerminator = false) (exception : V)
    (events : List (Event V)) :
    Matches e s t
      ((plainMachine world e).follow s b (rest.filter s.owns) exception events
        ((plainMachine world e).exec values exception events entry))
      ((splitMachine world e).follow t b rest exception events
        ((splitMachine world e).exec m exception events entry)) := by
  have operand : ∀ op ∈ entry.2.operands,
      (plainMachine world e).eval values op = (splitMachine world e).eval m op :=
    fun op member => eval_eq serves.covers code agrees plain member
  obtain ⟨i, insn⟩ := entry
  cases insn with
  | receiveArg dst index =>
      exact Matches.complete serves code agrees plain running rfl
        (completes_of_write rfl _) exception events
  | copy dst src =>
      have same := operand src List.mem_cons_self
      simp only [Machine.exec, same]
      exact Matches.complete serves code agrees plain running rfl
        (completes_of_write rfl _) exception events
  | call dst receiver method args block =>
      have reply : (plainMachine world e).world.reply events =
          (splitMachine world e).world.reply events := rfl
      simp only [Machine.exec, reply]
      cases ((splitMachine world e).world.reply events).outcome with
      | ok value =>
          exact Matches.complete serves code agrees plain running rfl
            (completes_of_call _ value) exception events
      | error raised =>
          refine Matches.raise serves code agrees plain rfl
            (raises_of_call world rfl _) ?_ exception raised events _
          intro unhandled v left
          exact Effects.Observes.leavingCall rfl unhandled left
  | receiveException dst =>
      exact Matches.complete serves code agrees plain running rfl
        (completes_of_write rfl _) exception events
  | jump dest =>
      exact Matches.jump serves code agrees plain List.mem_cons_self rfl rfl
        exception events
  | branch cond onTrue onFalse =>
      have same := operand cond List.mem_cons_self
      simp only [Machine.exec, same]
      exact Matches.jump serves code agrees plain
        (Insn.mem_targets_of_branch _) rfl rfl exception events
  | ret value =>
      have same := operand value List.mem_cons_self
      simp only [Machine.exec, same, Machine.follow]
      rw [leave_eq]
      · exact Matches.ends
      · intro v left
        exact agrees.frame_of_observes serves.covers (serves.covers.leaving v left)
          (Effects.Observes.ret left)
  | raise value =>
      have same := operand value List.mem_cons_self
      simp only [Machine.exec, same]
      refine Matches.raise serves code agrees plain rfl (raises_of_none _) ?_
        exception _ events _
      intro unhandled v left
      exact Effects.Observes.leavingRaise unhandled left
  | allocFrame | storeFrame _ | loadFrame _ => cases plain

omit plain in
theorem agrees_of_move (frame : entry.2.isFrameInsn = true) (exception : V)
    (events : List (Event V)) : e.Agrees t ⟨b, rest⟩ values
      ((splitMachine world e).exec m exception events entry).1 := by
  obtain ⟨i, insn⟩ := entry
  cases insn with
  | allocFrame => exact agrees.alloc serves.covers code rfl
  | storeFrame v => exact agrees.store serves.covers code rfl
  | loadFrame v => exact agrees.load serves.covers code rfl
  | _ => cases frame

end Lockstep

section Runs

variable {V : Type} {world : World V} {e : Effects} {s t : Body}

/-- From related points of a block both machines advance alike. -/
theorem advance_matches (serves : e.Serves s t) {b : BlockId} (listed : b ∈ t.layout.blocks)
    (exception : V) (events : List (Event V)) (rest : Code) {above : Code} {values : VarId → V}
    {m : Split V} (code : t.code b = above ++ rest)
    (running : ∀ entry ∈ above, entry.2.isTerminator = false)
    (agrees : e.Agrees t ⟨b, rest⟩ values m) :
    Matches e s t
      ((plainMachine world e).advance s b exception events values (rest.filter s.owns))
      ((splitMachine world e).advance t b exception events m rest) := by
  induction rest generalizing above m with
  | nil =>
      rw [List.append_nil] at code
      have ends : t.terminator? b = none := Body.terminator?_of_running (code ▸ running)
      have same := serves.extend.nextBlock? b
      rw [List.filter_nil]
      unfold Machine.advance Machine.fall
      cases next : t.layout.nextBlock? b with
      | some c =>
          rw [next] at same
          simp only [← same]
          have edge : c ∈ t.flowGraph.succs b := by
            refine Body.mem_succs_flowGraph.mpr ⟨listed, ?_⟩
            unfold Body.flowTargets
            rw [ends, next]
            exact List.mem_cons_self
          exact Matches.block serves (Body.mem_blocks_of_nextBlock? next) (agrees.edge edge)
            exception events
      | none =>
          rw [next] at same
          simp only [← same]
          rw [leave_eq]
          · exact Matches.ends
          · intro v left
            exact agrees.frame_of_observes serves.covers (serves.covers.leaving v left)
              (Effects.Observes.bottom listed ends next left)
  | cons entry rest ih =>
      cases frame : entry.2.isFrameInsn with
      | true =>
          -- only the split machine moves: the plain one does not have the instruction
          have member : entry ∈ t.code b := Body.mem_code_of_split code
          have foreign := serves.extend.owns_eq_false_of_bare serves.bare member frame
          rw [List.filter_cons_of_neg (by simp [foreign]), Machine.advance, if_pos frame]
          have below : t.code b = (above ++ [entry]) ++ rest :=
            code.trans (List.append_cons _ _ _)
          refine ih below ?_ (agrees_of_move serves code agrees frame exception events)
          intro other inside
          rcases List.mem_append.mp inside with before | here
          · exact running other before
          · rw [List.mem_singleton.mp here]
            exact Insn.isTerminator_of_frame frame
      | false =>
          have own := serves.extend.owns_of_plain code frame
          have event : (plainMachine world e).event values entry =
              (splitMachine world e).event m entry := event_eq serves.covers code agrees frame
          rw [List.filter_cons_of_pos own, Machine.advance, Machine.advance, frame,
            if_neg Bool.false_ne_true, if_neg Bool.false_ne_true, event]
          exact follow_matches serves code agrees frame running exception _

theorem step_matches (serves : e.Serves s t) {x : State (VarId → V) V} {y : State (Split V) V}
    (related : Related e s t x y) :
    Matches e s t ((plainMachine world e).step s x) ((splitMachine world e).step t y) := by
  obtain ⟨point, exception, events, listed, ⟨above, code, running⟩, agrees⟩ := related
  unfold Machine.step
  rw [point, exception, events]
  exact advance_matches serves listed _ _ _ code running agrees

theorem runFrom_eq (serves : e.Serves s t) (fuel : Nat) {x : State (VarId → V) V}
    {y : State (Split V) V} (related : Related e s t x y) :
    (plainMachine world e).runFrom s fuel x = (splitMachine world e).runFrom t fuel y := by
  induction fuel generalizing x y with
  | zero =>
      unfold Machine.runFrom
      rw [related.events]
  | succ fuel ih =>
      have matched : Matches e s t ((plainMachine world e).step s x)
          ((splitMachine world e).step t y) := step_matches serves related
      rw [Machine.runFrom, Machine.runFrom]
      generalize (plainMachine world e).step s x = left at matched
      generalize (splitMachine world e).step t y = right at matched
      cases matched with
      | goes more => exact ih more
      | ends => rfl

theorem run_eq_of_no_entry (first : s.layout.entry? = none) (other : t.layout.entry? = none)
    (outer slots : VarId → V) (fuel : Nat) :
    plainRun world e s outer fuel = splitRun world e t outer slots fuel := by
  unfold plainRun splitRun Machine.run
  rw [first, other]
  apply leave_eq
  intro v _
  rfl

theorem run_eq (serves : e.Serves s t) (outer slots : VarId → V) (fuel : Nat) :
    plainRun world e s outer fuel = splitRun world e t outer slots fuel := by
  have same : t.layout.entry? = s.layout.entry? := by
    unfold Layout.entry?
    rw [serves.extend.blocks]
  cases first : s.layout.entry? with
  | none => exact run_eq_of_no_entry first (same.trans first) outer slots fuel
  | some b =>
      have entry := same.trans first
      unfold plainRun splitRun Machine.run
      rw [first, entry]
      exact runFrom_eq serves fuel
        { point := (serves.extend.shadow_code b).symm
          exception := rfl
          events := rfl
          listed := List.mem_of_head? entry
          inside := ⟨[], rfl, fun _ none => absurd none List.not_mem_nil⟩
          agrees := Effects.Agrees.initial e entry world.domain.nil outer slots }

end Runs

end FramePlacement
