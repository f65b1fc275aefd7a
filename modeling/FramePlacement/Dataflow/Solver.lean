import FramePlacement.Dataflow.Problem
import FramePlacement.Dataflow.Setup
/-!
# Solving a dataflow problem

The solver visits blocks from a first-in first-out queue that starts with all reachable blocks, in
reverse post order for a forward problem and in post order for a backward one.  A visit recomputes
the facts of its block; if a fact that leaves the block has changed, the blocks that depend on it
are queued unless they already wait.  The result is stable once the queue is empty.
-/

set_option autoImplicit false

namespace FramePlacement

structure Solution (F : Type) where
  ins : IdMap F
  outs : IdMap F
  /-- The meet of the facts that flow from a block into its handler; only set going forward. -/
  excOuts : IdMap F
  queue : List BlockId
  /-- The blocks visited so far, the latest first. -/
  trace : List BlockId := []

namespace Solution

variable {F : Type}

def visits (sol : Solution F) : Nat := sol.trace.length

def enqueue (queue : List BlockId) (b : BlockId) : List BlockId :=
  if b ∈ queue then queue else queue ++ [b]

def enqueueAll (sol : Solution F) (blocks : IdSet) : Solution F :=
  { sol with queue := blocks.toList.foldl enqueue sol.queue }

end Solution

namespace Body

def endsInHandledRaise (s : Body) (b : BlockId) : Bool :=
  (s.handler? b).isSome && (s.lastInsn? b).any Insn.isRaise

end Body

namespace Problem

variable {F : Type}

def joinForward (p : Problem F) (g : FlowGraph) (entry : BlockId) (sol : Solution F)
    (b : BlockId) : F :=
  let start := if b = entry then p.boundary else p.initial
  p.meetAll sol.excOuts.get (g.excPreds b) (p.meetAll sol.outs.get (g.preds b) start)

def joinBackward (p : Problem F) (s : Body) (g : FlowGraph) (sol : Solution F) (b : BlockId) : F :=
  let leaves := (g.succs b).isEmpty && !s.endsInHandledRaise b
  p.meetAll sol.outs.get (g.succs b) (if leaves then p.boundary else p.initial)

def handlerFact (p : Problem F) (s : Body) (sol : Solution F) (b : BlockId) : F :=
  match s.handler? b with
  | some handler => sol.outs.get handler
  | none => p.boundary

/-- The fact right before an instruction is applied, in the direction of the analysis. -/
def factAt (p : Problem F) (s : Body) (sol : Solution F) (i : InsnId) : F :=
  match s.layout.blockOf? i with
  | none => p.initial
  | some b =>
      match p.direction with
      | .forward => p.after ((s.code b).takeWhile fun entry => entry.1 != i) (sol.ins.get b)
      | .backward =>
          ((s.code b).reverse.takeWhile fun entry => entry.1 != i).foldl
            (p.before (p.handlerFact s sol b)) (sol.ins.get b)

variable [DecidableEq F]

/-- Recomputes the facts of a block from above.  Tells whether a fact leaving the block changed. -/
def visitForward (p : Problem F) (s : Body) (g : FlowGraph) (entry : BlockId) (sol : Solution F)
    (b : BlockId) : Bool × Solution F :=
  let fact := p.joinForward g entry sol b
  let out := p.after (s.code b) fact
  let excOut := if (s.handler? b).isSome then p.raised (s.code b) fact p.initial else p.initial
  (decide (sol.outs.get b ≠ out ∨ sol.excOuts.get b ≠ excOut),
    { sol with
      ins := sol.ins.set b fact
      outs := sol.outs.set b out
      excOuts := sol.excOuts.set b excOut })

def visitBackward (p : Problem F) (s : Body) (g : FlowGraph) (sol : Solution F) (b : BlockId) :
    Bool × Solution F :=
  let fact := p.joinBackward s g sol b
  let out := p.beforeAll (p.handlerFact s sol b) (s.code b) fact
  (decide (sol.outs.get b ≠ out),
    { sol with ins := sol.ins.set b fact, outs := sol.outs.set b out })

def visit (p : Problem F) (s : Body) (g : FlowGraph) (entry : BlockId) (sol : Solution F)
    (b : BlockId) : Solution F :=
  match p.direction with
  | .forward =>
      let (changed, sol) := p.visitForward s g entry sol b
      if changed then sol.enqueueAll (g.allSuccs b) else sol
  | .backward =>
      let (changed, sol) := p.visitBackward s g sol b
      if changed then sol.enqueueAll (g.allPreds b) else sol

def iterate (p : Problem F) (s : Body) (g : FlowGraph) (entry : BlockId) :
    Nat → Solution F → Solution F
  | 0, sol => sol
  | limit + 1, sol =>
      match sol.queue with
      | [] => sol
      | b :: rest =>
          p.iterate s g entry limit
            (p.visit s g entry { sol with queue := rest, trace := b :: sol.trace } b)

def seed (p : Problem F) (g : FlowGraph) : List BlockId :=
  match p.direction with
  | .forward => g.reversePostOrder
  | .backward => g.postOrder

/-- More visits than any run needs: each of the two facts leaving a block changes at most `height`
times, and each change queues at most the blocks at the other end of an edge. -/
def visitLimit (p : Problem F) (g : FlowGraph) : Nat := (2 * p.height + 1) * (g.edgeCount + 1)

def start (p : Problem F) (g : FlowGraph) : Solution F :=
  { ins := IdMap.const p.initial
    outs := IdMap.const p.initial
    excOuts := IdMap.const p.initial
    queue := p.seed g }

def solve (p : Problem F) (s : Body) (g : FlowGraph) : Except SetupError (Solution F) :=
  match s.checkSetup g with
  | .ok entry => .ok (p.iterate s g entry (p.visitLimit g) (p.start g))
  | .error cause => .error cause

end Problem

end FramePlacement
