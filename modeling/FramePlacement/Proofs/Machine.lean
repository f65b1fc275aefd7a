import FramePlacement.Effects
import FramePlacement.Proofs.Path
import Mathlib.Logic.Function.Basic
/-!
# Machines that run one scope

A machine runs the instructions of one scope.  What a call does beyond the scope is up to its world:
the world sees everything the scope has done so far, among it the operands of the call and the
variables that nested code may observe; it overwrites variables that nested code may write, and
delivers a result or an exception.

Machines differ in how they keep variables.  The plain one keeps one value per variable, which is
how a scope behaves before its frame instructions exist.  The split one keeps a slot and a frame:
instructions see the slot, nested code sees the frame, and only frame instructions move values
between the two.

Frame instructions take no fuel and leave no trace, so runs of the two machines can be compared.
-/

set_option autoImplicit false

namespace FramePlacement

structure Domain (V : Type) where
  nil : V
  truthy : V → Bool
  /-- A literal, a closure or an implicit value. -/
  constant : Operand → V
  array : List V → V
  hash : List (V × V) → V

namespace Operand

variable {V : Type}

mutual
def eval (d : Domain V) (read : VarId → V) : Operand → V
  | var v => read v
  | nil => d.nil
  | array elems => d.array (evalList d read elems)
  | hash pairs => d.hash (evalPairs d read pairs)
  | op => d.constant op

def evalList (d : Domain V) (read : VarId → V) : List Operand → List V
  | [] => []
  | op :: rest => op.eval d read :: evalList d read rest

def evalPairs (d : Domain V) (read : VarId → V) : List (Operand × Operand) → List (V × V)
  | [] => []
  | (key, value) :: rest => (key.eval d read, value.eval d read) :: evalPairs d read rest
end

mutual
theorem eval_congr {d : Domain V} {read other : VarId → V} : ∀ {op : Operand},
    (∀ v ∈ op.vars, read v = other v) → op.eval d read = op.eval d other
  | var v, same => same v List.mem_cons_self
  | array elems, same => by
      simp only [eval]
      rw [evalList_congr same]
  | hash pairs, same => by
      simp only [eval]
      rw [evalPairs_congr same]
  | int _, _ | float _, _ | str _, _ | symbol _, _ | regexp _ _, _ | nil, _ | bool _, _
  | closure _, _ | selfValue, _ | currentScope, _ | scopeModule, _ => rfl

theorem evalList_congr {d : Domain V} {read other : VarId → V} : ∀ {ops : List Operand},
    (∀ v ∈ varsOfList ops, read v = other v) → evalList d read ops = evalList d other ops
  | [], _ => rfl
  | op :: rest, same => by
      rw [evalList, evalList, eval_congr fun v member => same v (List.mem_append_left _ member),
        evalList_congr fun v member => same v (List.mem_append_right _ member)]

theorem evalPairs_congr {d : Domain V} {read other : VarId → V} :
    ∀ {pairs : List (Operand × Operand)}, (∀ v ∈ varsOfPairs pairs, read v = other v) →
    evalPairs d read pairs = evalPairs d other pairs
  | [], _ => rfl
  | (key, value) :: rest, same => by
      have front := fun v member => same v (List.mem_append_left _ member)
      rw [evalPairs, evalPairs, eval_congr fun v member => front v (List.mem_append_left _ member),
        eval_congr fun v member => front v (List.mem_append_right _ member),
        evalPairs_congr fun v member => same v (List.mem_append_right _ member)]
end

end Operand

/-! ## Memories -/

structure Memory (M V : Type) where
  read : M → VarId → V
  /-- What nested code sees. -/
  expose : M → VarId → V
  write : M → VarId → V → M
  overwrite : M → (VarId → Option V) → M
  store : M → VarId → M
  load : M → VarId → M

def replaced {V : Type} (values : VarId → V) (news : VarId → Option V) : VarId → V :=
  fun v => (news v).getD (values v)

/-- One value per variable, which everybody sees. -/
def plainMemory (V : Type) : Memory (VarId → V) V where
  read values := values
  expose values := values
  write := Function.update
  overwrite := replaced
  store values _ := values
  load values _ := values

structure Split (V : Type) where
  slot : VarId → V
  frame : VarId → V

/-- Instructions see the slots, and nested code the frames. -/
def splitMemory (V : Type) : Memory (Split V) V where
  read := Split.slot
  expose := Split.frame
  write m v value := { m with slot := Function.update m.slot v value }
  overwrite m news := { m with frame := replaced m.frame news }
  store m v := { m with frame := Function.update m.frame v (m.slot v) }
  load m v := { m with slot := Function.update m.slot v (m.frame v) }

/-! ## Machines -/

/-- An instruction that ran, with everything the world sees of it. -/
structure Event (V : Type) where
  insn : InsnId
  operands : List V
  observed : List (VarId × V)

/-- What a call did: the variables it wrote, and its result or the exception it raised. -/
structure Reply (V : Type) where
  writes : VarId → Option V
  outcome : Except V V

structure World (V : Type) where
  domain : Domain V
  args : List V
  /-- What the last of some events does, which is a call. -/
  reply : List (Event V) → Reply V

/-- How the activation ended, and the variables that can be observed from then on. -/
structure Ending (V : Type) where
  outcome : Except V V
  observed : List (VarId × V)

/-- All events in order, and the ending unless the fuel ran out before. -/
structure Trace (V : Type) where
  events : List (Event V)
  ending? : Option (Ending V) := none

inductive Flow (V : Type) where
  | next
  | jump (dest : BlockId)
  | ret (value : V)
  | raise (exception : V)

structure State (M V : Type) where
  point : Point
  memory : M
  exception : V
  events : List (Event V)

inductive Outcome (M V : Type) where
  | goes (state : State M V)
  | ends (trace : Trace V)

structure Machine (M V : Type) where
  memory : Memory M V
  world : World V
  effects : Effects

namespace Machine

variable {M V : Type} (k : Machine M V)

def eval (m : M) (op : Operand) : V := op.eval k.world.domain (k.memory.read m)

def shown (m : M) (vars : IdSet) : List (VarId × V) :=
  vars.toList.map fun v => (v, k.memory.expose m v)

def event (m : M) (entry : InsnId × Insn) : Event V where
  insn := entry.1
  operands := entry.2.operands.map (k.eval m)
  observed := k.shown m (k.effects.observed.get entry.1)

/-- What a reply writes, as far as the call may write it. -/
def writes (i : InsnId) (reply : Reply V) (v : VarId) : Option V :=
  if v ∈ k.effects.clobbered.get i then reply.writes v else none

def writeResult (m : M) (dst : Option VarId) (value : V) : M :=
  match dst with
  | some v => k.memory.write m v value
  | none => m

/-- Runs one instruction.  The events include the one of this instruction. -/
def exec (m : M) (exception : V) (events : List (Event V)) : InsnId × Insn → M × Flow V
  | (_, .receiveArg dst index) =>
      (k.memory.write m dst ((k.world.args[index]?).getD k.world.domain.nil), .next)
  | (_, .copy dst src) => (k.memory.write m dst (k.eval m src), .next)
  | (i, .call dst _ _ _ _) =>
      let reply := k.world.reply events
      let after := k.memory.overwrite m (k.writes i reply)
      match reply.outcome with
      | .ok value => (k.writeResult after dst value, .next)
      | .error exception => (after, .raise exception)
  | (_, .receiveException dst) => (k.memory.write m dst exception, .next)
  | (_, .jump dest) => (m, .jump dest)
  | (_, .branch cond onTrue onFalse) =>
      (m, .jump (if k.world.domain.truthy (k.eval m cond) then onTrue else onFalse))
  | (_, .ret value) => (m, .ret (k.eval m value))
  | (_, .raise value) => (m, .raise (k.eval m value))
  | (_, .allocFrame) => (m, .next)
  | (_, .storeFrame v) => (k.memory.store m v, .next)
  | (_, .loadFrame v) => (k.memory.load m v, .next)

def leave (m : M) (events : List (Event V)) (outcome : Except V V) : Trace V where
  events := events
  ending? := some { outcome, observed := k.shown m k.effects.exitObserved }

def follow (s : Body) (b : BlockId) (rest : Code) (exception : V) (events : List (Event V)) :
    M × Flow V → Outcome M V
  | (memory, .next) => .goes { point := ⟨b, rest⟩, memory, exception, events }
  | (memory, .jump dest) => .goes { point := ⟨dest, s.code dest⟩, memory, exception, events }
  | (memory, .ret value) => .ends (k.leave memory events (.ok value))
  | (memory, .raise exception) =>
      match s.handler? b with
      | some handler =>
          .goes { point := ⟨handler, s.code handler⟩, memory, exception, events }
      | none => .ends (k.leave memory events (.error exception))

/-- Control falls into the next block, or returns nil from the last one. -/
def fall (s : Body) (b : BlockId) (memory : M) (exception : V) (events : List (Event V)) :
    Outcome M V :=
  match s.layout.nextBlock? b with
  | some c => .goes { point := ⟨c, s.code c⟩, memory, exception, events }
  | none => .ends (k.leave memory events (.ok k.world.domain.nil))

/-- Runs some code of block `b` up to and including the first instruction that does not manage
frames. -/
def advance (s : Body) (b : BlockId) (exception : V) (events : List (Event V)) :
    M → Code → Outcome M V
  | m, [] => k.fall s b m exception events
  | m, entry :: rest =>
      if entry.2.isFrameInsn then
        advance s b exception events (k.exec m exception events entry).1 rest
      else
        let events := events ++ [k.event m entry]
        k.follow s b rest exception events (k.exec m exception events entry)

def step (s : Body) (state : State M V) : Outcome M V :=
  k.advance s state.point.block state.exception state.events state.memory state.point.rest

def runFrom (s : Body) : Nat → State M V → Trace V
  | 0, state => { events := state.events }
  | fuel + 1, state =>
      match k.step s state with
      | .goes next => runFrom s fuel next
      | .ends trace => trace

def run (s : Body) (memory : M) (fuel : Nat) : Trace V :=
  match s.layout.entry? with
  | some b => k.runFrom s fuel
      { point := ⟨b, s.code b⟩, memory, exception := k.world.domain.nil, events := [] }
  | none => k.leave memory [] (.ok k.world.domain.nil)

end Machine

/-- Variables of the scope itself start out nil, and enclosing ones with some values. -/
def Effects.initial {V : Type} (e : Effects) (nil : V) (outer : VarId → V) : VarId → V :=
  fun v => if v ∈ e.enclosing then outer v else nil

def plainMachine {V : Type} (world : World V) (e : Effects) : Machine (VarId → V) V where
  memory := plainMemory V
  world := world
  effects := e

def splitMachine {V : Type} (world : World V) (e : Effects) : Machine (Split V) V where
  memory := splitMemory V
  world := world
  effects := e

def plainRun {V : Type} (world : World V) (e : Effects) (s : Body) (outer : VarId → V)
    (fuel : Nat) : Trace V :=
  (plainMachine world e).run s (e.initial world.domain.nil outer) fuel

/-- Runs a scope whose enclosing variables have some values in their frames, and whatever values in
their slots. -/
def splitRun {V : Type} (world : World V) (e : Effects) (s : Body) (outer slots : VarId → V)
    (fuel : Nat) : Trace V :=
  (splitMachine world e).run s
    { slot := e.initial world.domain.nil slots, frame := e.initial world.domain.nil outer } fuel

end FramePlacement
