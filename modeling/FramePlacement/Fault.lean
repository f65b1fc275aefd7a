/-!
# Faults

A fault is a call that breaks its contract, such as one that names an entity no arena holds.  It is
not an error of the placement: no configuration recovers from it.
-/

set_option autoImplicit false

namespace FramePlacement

/-- A broken contract of a caller. -/
inductive Fault where
  | unknownId
  | noCurrentBlock
  | notInLayout
deriving DecidableEq

namespace Fault

def message? : Fault → Option String
  | unknownId => none
  | noCurrentBlock => some "no current block, call `switch_to_block` first"
  | notInLayout => some "instruction is not inserted in the layout"

/-- A lookup whose failure breaks the contract. -/
def require {α : Type} (fault : Fault) : Option α → Except Fault α
  | some a => .ok a
  | none => .error fault

def guarded {α : Type} (known : Bool) (a : α) : Except Fault α :=
  if known then .ok a else .error unknownId

end Fault

end FramePlacement
