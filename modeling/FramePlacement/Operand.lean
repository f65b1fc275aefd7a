import FramePlacement.Literal.Binary64
import FramePlacement.Variable
/-!
# Operands

An operand is a value an instruction reads: a variable, a literal, a compound literal whose parts
are operands again, a nested closure handed over as a value, or one of three implicit values.
Variables and closures are found at any nesting, in the order in which they are written.
-/

set_option autoImplicit false

namespace FramePlacement

/-- The identifier of a closure within the scope that directly contains it. -/
abbrev ClosureId := Nat

def closureLabel (c : ClosureId) : String := "closure" ++ toString c

inductive Operand where
  | var (v : VarId)
  | int (value : Int)
  | float (value : Binary64)
  | str (value : String)
  | symbol (name : String)
  | regexp (source : String) (options : Nat)
  | nil
  | bool (value : Bool)
  | array (elems : List Operand)
  | hash (pairs : List (Operand × Operand))
  | closure (c : ClosureId)
  | selfValue
  | currentScope
  | scopeModule
deriving Inhabited

namespace Operand

def asVar? : Operand → Option VarId
  | var v => some v
  | _ => none

def asClosure? : Operand → Option ClosureId
  | closure c => some c
  | _ => none

mutual
/-- The operand is a constant: a literal, or a compound literal of constants. -/
def isLiteral : Operand → Bool
  | int _ | float _ | str _ | symbol _ | regexp _ _ | nil | bool _ => true
  | array elems => allLiteral elems
  | hash pairs => allPairsLiteral pairs
  | var _ | closure _ | selfValue | currentScope | scopeModule => false

def allLiteral : List Operand → Bool
  | [] => true
  | op :: rest => op.isLiteral && allLiteral rest

def allPairsLiteral : List (Operand × Operand) → Bool
  | [] => true
  | (key, value) :: rest => key.isLiteral && value.isLiteral && allPairsLiteral rest
end

mutual
def vars : Operand → List VarId
  | var v => [v]
  | array elems => varsOfList elems
  | hash pairs => varsOfPairs pairs
  | _ => []

def varsOfList : List Operand → List VarId
  | [] => []
  | op :: rest => op.vars ++ varsOfList rest

def varsOfPairs : List (Operand × Operand) → List VarId
  | [] => []
  | (key, value) :: rest => key.vars ++ value.vars ++ varsOfPairs rest
end

mutual
def closures : Operand → List ClosureId
  | closure c => [c]
  | array elems => closuresOfList elems
  | hash pairs => closuresOfPairs pairs
  | _ => []

def closuresOfList : List Operand → List ClosureId
  | [] => []
  | op :: rest => op.closures ++ closuresOfList rest

def closuresOfPairs : List (Operand × Operand) → List ClosureId
  | [] => []
  | (key, value) :: rest => key.closures ++ value.closures ++ closuresOfPairs rest
end

def usesVar (op : Operand) (v : VarId) : Bool := op.vars.contains v

mutual
/-- Two operands are written alike, floats being compared as numbers. -/
def same : Operand → Operand → Bool
  | var v, var w => v == w
  | int a, int b => a == b
  | float a, float b => a.numEq b
  | str a, str b => a == b
  | symbol a, symbol b => a == b
  | regexp a m, regexp b n => a == b && m == n
  | nil, nil => true
  | bool a, bool b => a == b
  | array as, array bs => sameList as bs
  | hash as, hash bs => samePairs as bs
  | closure c, closure d => c == d
  | selfValue, selfValue => true
  | currentScope, currentScope => true
  | scopeModule, scopeModule => true
  | _, _ => false

def sameList : List Operand → List Operand → Bool
  | [], [] => true
  | a :: as, b :: bs => a.same b && sameList as bs
  | _, _ => false

def samePairs : List (Operand × Operand) → List (Operand × Operand) → Bool
  | [], [] => true
  | (k, a) :: as, (l, b) :: bs => k.same l && a.same b && samePairs as bs
  | _, _ => false
end

end Operand

end FramePlacement
