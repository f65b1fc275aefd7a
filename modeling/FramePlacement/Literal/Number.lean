import FramePlacement.Literal.Shortest
/-!
# How float literals are written

The digits are the shortest ones.  Between the two limits of the format the number is positional and
keeps at least one place; outside them it is scientific, with one digit before the point and no
forced place.
-/

set_option autoImplicit false

namespace FramePlacement

structure NumberFormat where
  /-- The least power of ten of a first digit that is written positionally. -/
  leastPositional : Int
  /-- The least power of ten of a first digit that is written scientifically again. -/
  leastScientific : Int

namespace Decimal

def zeros (n : Nat) : List Char := List.replicate n '0'

/-- Positional writing with at least one place after the point. -/
def positional (d : Decimal) : String :=
  let digits := d.significant
  let whole := d.leading + 1
  if whole ≤ 0 then String.ofList ("0.".toList ++ zeros (-whole).toNat ++ digits)
  else if digits.length ≤ whole.toNat then
    String.ofList (digits ++ zeros (whole.toNat - digits.length) ++ ".0".toList)
  else String.ofList (digits.take whole.toNat ++ '.' :: digits.drop whole.toNat)

/-- One digit, the other digits after a point if there are any, and the power of ten. -/
def scientific (d : Decimal) : String :=
  let places := match d.significant with
    | [] => []
    | [first] => [first]
    | first :: rest => first :: '.' :: rest
  String.ofList places ++ "e" ++ toString d.leading

end Decimal

namespace Binary64

/-- Numbers from 0.0001 up to 10 ^ 16 are positional. -/
def format : NumberFormat := { leastPositional := -4, leastScientific := 16 }

def magnitudeText (x : Binary64) : String :=
  if x.isInfinite then "inf"
  else if x.isZero then "0.0"
  else match x.shortest? with
    | none => ""
    | some d =>
        if format.leastPositional ≤ d.leading && d.leading < format.leastScientific then
          d.positional
        else d.scientific

/-- The sign of a zero and of an infinity is kept, that of a NaN is not. -/
def text (x : Binary64) : String :=
  if x.isNaN then "NaN"
  else if x.isNegative then "-" ++ x.magnitudeText
  else x.magnitudeText

end Binary64

end FramePlacement
