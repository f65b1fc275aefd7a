import FramePlacement.IdSet
import FramePlacement.Layout
/-!
# Scopes

A scope is the body of a method, closure or script together with the closures nested directly in it.
The body owns three arenas (blocks, instructions, variables) and the layout that orders the first
two.  All analyses of one scope look at its body and at what is known about its closures, never
inside them.
-/

set_option autoImplicit false

namespace FramePlacement

inductive ScopeKind where
  | method
  | closure
  | script
deriving DecidableEq, Inhabited

def ScopeKind.text : ScopeKind → String
  | .method => "method"
  | .closure => "closure"
  | .script => "script"

abbrev Code := List (InsnId × Insn)

structure Body where
  name : String
  kind : ScopeKind
  layout : Layout := {}
  /-- The blocks; the only datum of a block is the handler of exceptions raised in it. -/
  handlers : Array (Option BlockId) := #[]
  insns : Array Insn := #[]
  vars : VarTable := {}
  /-- The own locals that some nested closure reads or writes. -/
  captured : IdSet := ∅
  /-- The binding can be reached from outside the instructions of the scope. -/
  escapes : Bool := false
  /-- Placement was given up: every captured local lives in the frame. -/
  eager : Bool := false
deriving Inhabited

namespace Body

def insn? (s : Body) (i : InsnId) : Option Insn := s.insns[i]?

/-- The handler of a block; none for a block outside the arena. -/
def handler? (s : Body) (b : BlockId) : Option BlockId := (s.handlers[b]?).join

def code (s : Body) (b : BlockId) : Code :=
  (s.layout.insns b).filterMap fun i => (s.insn? i).map fun insn => (i, insn)

def allCode (s : Body) : Code := s.layout.blocks.flatMap s.code

def lastInsn? (s : Body) (b : BlockId) : Option Insn := (s.code b).getLast?.map Prod.snd

def hasFlow (s : Body) : Bool := s.layout.entry?.isSome

def makeBlock (s : Body) : BlockId × Body :=
  (s.handlers.size, { s with handlers := s.handlers.push none })

def makeInsn (s : Body) (insn : Insn) : InsnId × Body :=
  (s.insns.size, { s with insns := s.insns.push insn })

def setHandler (s : Body) (b : BlockId) (handler : Option BlockId) : Body :=
  { s with handlers := s.handlers.setIfInBounds b handler }

def intern (s : Body) (x : Variable) : VarId × Body :=
  let (v, vars) := s.vars.intern x
  (v, { s with vars })

def makeTemporary (s : Body) : VarId × Body :=
  let (v, vars) := s.vars.makeTemporary
  (v, { s with vars })

def append (s : Body) (insn : Insn) (b : BlockId) : Body :=
  let (i, s) := s.makeInsn insn
  { s with layout := s.layout.appendInsn i b }

def prepend (s : Body) (insn : Insn) (b : BlockId) : Body :=
  let (i, s) := s.makeInsn insn
  { s with layout := s.layout.prependInsn i b }

def addBefore (s : Body) (insn : Insn) (anchor : InsnId) : Body :=
  let (i, s) := s.makeInsn insn
  { s with layout := s.layout.insertBefore i anchor }

def addAfter (s : Body) (insn : Insn) (anchor : InsnId) : Body :=
  let (i, s) := s.makeInsn insn
  { s with layout := s.layout.insertAfter i anchor }

end Body

/-- A scope: its body and the closures nested directly in it, each at its identifier. -/
inductive Scope where
  | node (body : Body) (closures : List Scope)
deriving Inhabited

namespace Scope

def body : Scope → Body
  | node body _ => body

def closures : Scope → List Scope
  | node _ closures => closures

def empty (name : String) (kind : ScopeKind) : Scope := node { name, kind } []

def withBody (s : Scope) (body : Body) : Scope := node body s.closures

def addClosure (s : Scope) (closure : Scope) : ClosureId × Scope :=
  (s.closures.length, node s.body (s.closures ++ [closure]))

end Scope

end FramePlacement
