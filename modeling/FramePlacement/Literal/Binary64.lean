/-!
# Floating point literals

A float literal is its 64 bit pattern.  Two literals are equal as numbers, so a NaN differs from
itself and the two zeros agree.  A finite magnitude is decoded into the integer `significand` and
the exponent `scale` with value `significand * 2 ^ scale`.
-/

set_option autoImplicit false

namespace FramePlacement

/-- A double precision number, by its bits: sign, eleven bits of exponent, fraction. -/
structure Binary64 where
  bits : UInt64
deriving DecidableEq, Inhabited

namespace Binary64

def isNegative (x : Binary64) : Bool := x.bits.toNat.testBit 63

def exponentField (x : Binary64) : Nat := x.bits.toNat / Nat.pow 2 52 % Nat.pow 2 11

def fraction (x : Binary64) : Nat := x.bits.toNat % Nat.pow 2 52

def specialField : Nat := 2047

def isNaN (x : Binary64) : Bool := x.exponentField == specialField && x.fraction != 0

def isInfinite (x : Binary64) : Bool := x.exponentField == specialField && x.fraction == 0

def isZero (x : Binary64) : Bool := x.exponentField == 0 && x.fraction == 0

/-- Equality of numbers: never for a NaN, always for two zeros, and bit for bit otherwise. -/
def numEq (x y : Binary64) : Bool :=
  if x.isNaN || y.isNaN then false
  else if x.isZero && y.isZero then true
  else x == y

/-- The integer part of the decoded magnitude: the leading one is implied unless the exponent field
is zero. -/
def significand (x : Binary64) : Nat :=
  if x.exponentField == 0 then x.fraction else Nat.pow 2 52 + x.fraction

def scale (x : Binary64) : Int :=
  if x.exponentField == 0 then -1074 else (x.exponentField : Int) - 1075

end Binary64

end FramePlacement
