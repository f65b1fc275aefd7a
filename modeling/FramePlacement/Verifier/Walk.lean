import FramePlacement.Fault
import FramePlacement.Placement.Insert
/-!
# Verifying in one walk

The findings of a scope need not be listed to name the first of them.  The verifier walks through
the layout once and stops at the first thing that is out of order.  On its way it remembers where
the frame was allocated and where the entry block moves own locals, because the rules on the
allocation of the whole scope can only be decided at the end.

A walk that stops does so with a finding: a violation, or an identifier outside the arenas.
-/

set_option autoImplicit false

namespace FramePlacement

namespace Finding

def stopIf (broken : Bool) (cause : Violation) : Except Finding Unit :=
  if broken then .error (violation cause) else .ok ()

def require {α : Type} : Option α → Except Finding α
  | some a => .ok a
  | none => .error dangling

end Finding

/-- What the walk remembers of the code it has passed. -/
structure Walk where
  alloc? : Option Nat := none
  needsAlloc : Bool := false
  entryMoves : List Nat := []
deriving DecidableEq

namespace Walk

def allocateAt (walk : Walk) (position : Nat) : Walk := { walk with alloc? := some position }

def moveAt (walk : Walk) (inEntry : Bool) (position : Nat) : Walk :=
  { walk with
    needsAlloc := true
    entryMoves := if inEntry then walk.entryMoves ++ [position] else walk.entryMoves }

def settle (walk : Walk) : Except Finding Unit :=
  match walk.alloc? with
  | none => Finding.stopIf walk.needsAlloc .missingAlloc
  | some alloc =>
      Finding.stopIf (walk.entryMoves.any fun position => position < alloc) .bindingBeforeAlloc

end Walk

namespace Body

def passMove (s : Body) (b : BlockId) (position : Nat) (walk : Walk) (v : VarId) :
    Except Finding Walk := do
  let x ← Finding.require (s.vars.var? v)
  match x.depth? with
  | none => .error (.violation .bindingOfTemporary)
  | some 0 => return walk.moveAt (s.layout.entry? == some b) position
  | some (_ + 1) => return walk

def passFrame (s : Body) (b : BlockId) (position : Nat) (walk : Walk) :
    Insn → Except Finding Walk
  | .allocFrame => do
      Finding.stopIf (s.layout.entry? != some b) (.allocOutsideEntry b)
      Finding.stopIf walk.alloc?.isSome .duplicateAlloc
      return walk.allocateAt position
  | .storeFrame v | .loadFrame v => s.passMove b position walk v
  | _ => return walk

/-- Passes an instruction of a block, given the position of the one before it. -/
def passInsn (s : Body) (b : BlockId) (last? : Option Nat) (i : InsnId) (walk : Walk) :
    Except Finding Walk := do
  let insn ← Finding.require (s.insn? i)
  let position := s.layout.position i
  Finding.stopIf (last?.any fun last => position ≤ last) (.positionNotIncreasing b)
  Finding.stopIf (insn.isTerminator && (s.layout.nextInsn? i).isSome) (.terminatorNotLast b)
  Finding.stopIf (insn.targets.any fun target => !s.layout.hasBlock target)
    (.branchToMissingBlock b)
  s.passFrame b position walk insn

def passInsns (s : Body) (b : BlockId) : Option Nat → List InsnId → Walk → Except Finding Walk
  | _, [], walk => .ok walk
  | last?, i :: rest, walk => do
      let walk ← s.passInsn b last? i walk
      s.passInsns b (some (s.layout.position i)) rest walk

def passBlock (s : Body) (walk : Walk) (b : BlockId) : Except Finding Walk := do
  let handler? ← Finding.require s.handlers[b]?
  Finding.stopIf (handler?.any fun handler => !s.layout.hasBlock handler) (.handlerNotInLayout b)
  s.passInsns b none (s.layout.insns b) walk

def walk (s : Body) : Except Finding Unit := do
  let walk ← s.layout.blocks.foldlM s.passBlock {}
  walk.settle

/-- What the outcome of the walk says about the scope: it is accepted, or the first violation is
reported, or a caller has broken its contract. -/
def walkAnswer (s : Body) : Except Fault (Except PlacementError Unit) :=
  match s.walk with
  | .ok () => .ok (.ok ())
  | .error (.violation cause) => .ok (.error (.invariant s.name cause))
  | .error .dangling => .error .unknownId

end Body

end FramePlacement
