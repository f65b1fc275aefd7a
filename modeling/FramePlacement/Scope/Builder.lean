import FramePlacement.Capture
import FramePlacement.Fault
/-!
# Building scopes

A builder appends instructions at the end of its current block.  Finishing a scope collects the
variables that its closures capture.
-/

set_option autoImplicit false

namespace FramePlacement

structure Builder where
  scope : Scope
  current? : Option BlockId := none

namespace Builder

def mapBody (b : Builder) (f : Body → Body) : Builder :=
  { b with scope := b.scope.withBody (f b.scope.body) }

def withBody {α : Type} (b : Builder) (f : Body → α × Body) : α × Builder :=
  let (a, body) := f b.scope.body
  (a, { b with scope := b.scope.withBody body })

def appendBlock (b : Builder) : BlockId × Builder :=
  b.withBody fun s =>
    let (block, s) := s.makeBlock
    (block, { s with layout := s.layout.appendBlock block })

def switchTo (b : Builder) (block : BlockId) : Builder := { b with current? := some block }

def setHandler (b : Builder) (handler : Option BlockId) : Except Fault Builder := do
  let block ← Fault.noCurrentBlock.require b.current?
  return b.mapBody fun s => s.setHandler block handler

def setEscapes (b : Builder) : Builder := b.mapBody fun s => { s with escapes := true }

def intern (b : Builder) (name : String) (depth : Nat) : VarId × Builder :=
  b.withBody fun s => s.intern (.named name depth)

def temporary (b : Builder) : VarId × Builder := b.withBody Body.makeTemporary

def closure (b : Builder) (closure : Scope) : ClosureId × Builder :=
  let (c, scope) := b.scope.addClosure closure
  (c, { b with scope })

/-- The instruction that a new one would follow, if there is one, is known. -/
def endKnown (b : Builder) (block : BlockId) : Bool :=
  (b.scope.body.layout.lastInsn? block).all fun last => (b.scope.body.insn? last).isSome

def insert (b : Builder) (insn : Insn) : Except Fault (InsnId × Builder) := do
  let block ← Fault.noCurrentBlock.require b.current?
  Fault.guarded (b.endKnown block)
    (b.scope.body.insns.size, b.mapBody fun s => s.append insn block)

def call (b : Builder) (dst : Option VarId) (receiver : Operand) (method : String)
    (args : List Operand) (block : Option ClosureId) : Except Fault (InsnId × Builder) :=
  b.insert (.call dst receiver method args (block.map Operand.closure))

def finish (b : Builder) : Scope := b.scope.collectCaptures

end Builder

end FramePlacement
