import FramePlacement.Operand
/-!
# Instructions

What each instruction of a scope reads, writes and does to control.  Every local has a fast slot;
the last three instructions move values between the fast slot of a variable and the binding frame
that owns it.
-/

set_option autoImplicit false

namespace FramePlacement

abbrev InsnId := Nat

abbrev BlockId := Nat

def blockLabel (b : BlockId) : String := "block" ++ toString b

inductive Insn where
  | receiveArg (dst : VarId) (index : Nat)
  | copy (dst : VarId) (src : Operand)
  /-- A method call.  The callee may run the block operand any number of times before it returns. -/
  | call (dst : Option VarId) (receiver : Operand) (method : String) (args : List Operand)
      (block : Option Operand)
  | receiveException (dst : VarId)
  | jump (dest : BlockId)
  | branch (cond : Operand) (onTrue onFalse : BlockId)
  | ret (value : Operand)
  | raise (exception : Operand)
  /-- Allocates the binding frame of the activation unless it has one. -/
  | allocFrame
  /-- Copies the fast slot of a variable into the frame that owns it. -/
  | storeFrame (v : VarId)
  /-- Copies a variable from the frame that owns it into its fast slot. -/
  | loadFrame (v : VarId)
deriving Inhabited

namespace Insn

def mnemonic : Insn → String
  | receiveArg _ _ => "recv_arg"
  | copy _ _ => "copy"
  | call _ _ _ _ _ => "call"
  | receiveException _ => "recv_exc"
  | jump _ => "jump"
  | branch _ _ _ => "br"
  | ret _ => "return"
  | raise _ => "raise"
  | allocFrame => "alloc_binding"
  | storeFrame _ => "store_binding"
  | loadFrame _ => "load_binding"

/-- The variable whose fast slot is written; a load writes the slot of its variable. -/
def result? : Insn → Option VarId
  | receiveArg dst _ | copy dst _ | receiveException dst | loadFrame dst => some dst
  | call dst _ _ _ _ => dst
  | jump _ | branch _ _ _ | ret _ | raise _ | allocFrame | storeFrame _ => none

/-- The operands in order; a call has its receiver first and its block last. -/
def operands : Insn → List Operand
  | copy _ src => [src]
  | call _ receiver _ args block => receiver :: args ++ block.toList
  | branch cond _ _ => [cond]
  | ret value => [value]
  | raise exception => [exception]
  | receiveArg _ _ | receiveException _ | jump _ | allocFrame | storeFrame _ | loadFrame _ => []

def usedVars : Insn → List VarId
  | storeFrame v => [v]
  | insn => insn.operands.flatMap Operand.vars

def usesVar (insn : Insn) (v : VarId) : Bool := insn.usedVars.contains v

/-- The closures handed over, at any nesting in any operand. -/
def closures (insn : Insn) : List ClosureId := insn.operands.flatMap Operand.closures

def canRaise : Insn → Bool
  | call _ _ _ _ _ | raise _ => true
  | _ => false

/-- Control never runs on to the following instruction. -/
def isTerminator : Insn → Bool
  | jump _ | branch _ _ _ | ret _ | raise _ => true
  | _ => false

/-- The instruction leaves the activation, unless a handler catches it. -/
def isExit : Insn → Bool
  | ret _ | raise _ => true
  | _ => false

def isFrameInsn : Insn → Bool
  | allocFrame | storeFrame _ | loadFrame _ => true
  | _ => false

def movedVar? : Insn → Option VarId
  | storeFrame v | loadFrame v => some v
  | _ => none

def isCall : Insn → Bool
  | call _ _ _ _ _ => true
  | _ => false

def isRaise : Insn → Bool
  | raise _ => true
  | _ => false

def isAlloc : Insn → Bool
  | allocFrame => true
  | _ => false

/-- The blocks control may go to without an exception, each once. -/
def targets : Insn → List BlockId
  | jump dest => [dest]
  | branch _ onTrue onFalse => if onTrue = onFalse then [onTrue] else [onTrue, onFalse]
  | _ => []

end Insn

end FramePlacement
