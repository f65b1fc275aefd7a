import FramePlacement.Literal.Binary64
/-!
# Shortest decimal digits

Among the decimals that round to a given double, the written one has the fewest digits, and of those
it is the nearest, the larger one of two that are equally near.  A double stands for the reals
between the midpoints to its neighbours, the midpoints included when its significand is even.  For
one digit, two digits, and so on, the decimal grid with that many digits has two points next to the
value; the first grid with a point inside the interval wins.  All comparisons are made in whole
numbers.
-/

set_option autoImplicit false

namespace FramePlacement

/-- A positive decimal: the number `digits * 10 ^ exponent`. -/
structure Decimal where
  digits : Nat
  exponent : Int
deriving DecidableEq

namespace Decimal

/-- How many decimal digits a number has; zero has none. -/
def digitCount (n : Nat) : Nat := if n == 0 then 0 else (Nat.toDigits 10 n).length

def significant (d : Decimal) : List Char :=
  ((Nat.toDigits 10 d.digits).reverse.dropWhile (· == '0')).reverse

/-- The power of ten of the first digit. -/
def leading (d : Decimal) : Int := d.exponent + digitCount d.digits - 1

end Decimal

namespace Binary64

/-- The reals that round to a double, measured in quarters of its last place. -/
structure Interval where
  low : Nat
  value : Nat
  high : Nat
  closed : Bool
  /-- The power of two of a quarter of the last place. -/
  scale : Int

/-- Above, the midpoint is half a place away; below it is a quarter at the least significand of a
binade, where the places get finer, and half a place elsewhere.  The least normal number is no
exception, although the places below it are no finer. -/
def interval (x : Binary64) : Interval :=
  let m := x.significand
  { low := if m == Nat.pow 2 52 then 4 * m - 1 else 4 * m - 2
    value := 4 * m
    high := 4 * m + 2
    closed := m % 2 == 0
    scale := x.scale - 2 }

namespace Interval

/-- The factor that makes the quarters and the grid `10 ^ k` whole multiples of one unit, and the
step of the grid in that unit. -/
def units (i : Interval) (k : Int) : Nat × Nat :=
  (Nat.pow 2 i.scale.toNat * Nat.pow 10 (-k).toNat,
    Nat.pow 10 k.toNat * Nat.pow 2 (-i.scale).toNat)

def holds (i : Interval) (k : Int) (d : Nat) : Bool :=
  let (factor, step) := i.units k
  if i.closed then i.low * factor ≤ d * step && d * step ≤ i.high * factor
  else i.low * factor < d * step && d * step < i.high * factor

/-- The grid point nearest to the value, of those two beside it that lie in the interval. -/
def nearestOnGrid? (i : Interval) (k : Int) : Option Nat :=
  let (factor, step) := i.units k
  let below := i.value * factor / step
  let rest := i.value * factor % step
  match i.holds k below && below != 0, i.holds k (below + 1) with
  | true, true => some (if 2 * rest < step then below else below + 1)
  | true, false => some below
  | false, true => some (below + 1)
  | false, false => none

def leading (i : Interval) : Int :=
  let numerator := i.value * Nat.pow 2 i.scale.toNat
  let denominator := Nat.pow 2 (-i.scale).toNat
  if denominator ≤ numerator then (Decimal.digitCount (numerator / denominator) : Int) - 1
  else -(Decimal.digitCount ((denominator + numerator - 1) / numerator - 1) : Int)

/-- Tries grids of `count` digits and more, at most `tries` of them. -/
def search (i : Interval) : Nat → Nat → Option Decimal
  | 0, _ => none
  | tries + 1, count =>
      let k := i.leading + 1 - count
      match i.nearestOnGrid? k with
      | some digits => some { digits, exponent := k }
      | none => i.search tries (count + 1)

end Interval

/-- Seventeen digits always tell two doubles apart. -/
def enoughDigits : Nat := 17

def shortest? (x : Binary64) : Option Decimal := x.interval.search enoughDigits 1

end Binary64

end FramePlacement
