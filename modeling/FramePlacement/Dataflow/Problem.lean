import FramePlacement.FlowGraph
/-!
# Dataflow problems

A problem attaches a fact to every program point.  It says what holds at the boundary, how facts of
joining paths meet, and how an instruction changes a fact when it completes and when it raises.  The
state that reaches a handler is the meet of the states at each raising instruction, not the state at
the end of the block.
-/

set_option autoImplicit false

namespace FramePlacement

inductive Direction where
  | forward
  | backward
deriving DecidableEq

structure Problem (F : Type) where
  name : String
  direction : Direction
  /-- The fact at the entry of a forward problem, at the exits of a backward one. -/
  boundary : F
  /-- The identity of `meet`, where every fact starts. -/
  initial : F
  meet : F → F → F
  transfer : InsnId → Insn → F → F
  /-- The effect of an instruction that raises: its side effects happen, its result is not
  written. -/
  transferRaise : InsnId → Insn → F → F := fun _ _ fact => fact
  /-- How often one fact can change before it is stable. -/
  height : Nat

namespace Problem

variable {F : Type}

def meetAll (p : Problem F) (facts : BlockId → F) (blocks : IdSet) (start : F) : F :=
  blocks.toList.foldl (fun fact b => p.meet fact (facts b)) start

def after (p : Problem F) (code : Code) (fact : F) : F :=
  code.foldl (fun fact entry => p.transfer entry.1 entry.2 fact) fact

/-- The meet of `acc` with the facts in which the code may raise. -/
def raised (p : Problem F) : Code → F → F → F
  | [], _, acc => acc
  | (i, insn) :: rest, fact, acc =>
      p.raised rest (p.transfer i insn fact)
        (if insn.canRaise then p.meet acc (p.transferRaise i insn fact) else acc)

/-- One instruction against the flow: from the fact after it to the fact before it, when an
exception is received with `handlerFact`. -/
def before (p : Problem F) (handlerFact : F) (fact : F) (entry : InsnId × Insn) : F :=
  let completed := p.transfer entry.1 entry.2 fact
  if entry.2.canRaise then p.meet completed (p.transferRaise entry.1 entry.2 handlerFact)
  else completed

def beforeAll (p : Problem F) (handlerFact : F) (code : Code) (fact : F) : F :=
  code.reverse.foldl (p.before handlerFact) fact

end Problem

end FramePlacement
