import FramePlacement.Literal.Shortest
import Mathlib.Algebra.Order.Field.Power
import Mathlib.Data.List.TakeWhile
import Mathlib.Tactic.Linarith
import Mathlib.Tactic.Positivity
import Mathlib.Tactic.Ring
/-!
# The digits are shortest

The search for digits goes through coarser grids first.  On each grid it finds the point nearest to
the number among those in the rounding interval, and it finds none only if the interval has none
(`nearest_of_some`, `not_holds_of_none`).  A decimal with few digits may lie off the grid with as
many digits when it stands below the first power of ten under the number; then that power of ten is
in the interval too, and it is on the grid (`held_on_grid`).  Seventeen digits are always enough, as
the steps of that grid are narrower than the interval.
-/

set_option autoImplicit false

namespace FramePlacement

namespace Decimal

def value (d : Decimal) : ℚ := d.digits * 10 ^ d.exponent

theorem digitCount_of_pos {n : Nat} (pos : 0 < n) : digitCount n = (Nat.toDigits 10 n).length := by
  unfold digitCount
  rw [if_neg (by simpa using pos.ne')]

theorem digitCount_pos {n : Nat} (pos : 0 < n) : 0 < digitCount n := by
  rw [digitCount_of_pos pos]
  exact Nat.length_toDigits_pos

theorem lt_pow_digitCount {n : Nat} (pos : 0 < n) : n < 10 ^ digitCount n := by
  have bound := (Nat.length_toDigits_le_iff (n := n) (by decide : 1 < 10) (digitCount_pos pos)).mp
  exact bound (digitCount_of_pos pos).ge

theorem pow_digitCount_le {n : Nat} (pos : 0 < n) : 10 ^ (digitCount n - 1) ≤ n := by
  cases small : digitCount n - 1 with
  | zero => exact pos
  | succ k =>
      by_contra less
      have bound := (Nat.length_toDigits_le_iff (by decide : 1 < 10) k.succ_pos).mpr
        (not_le.mp less)
      rw [← digitCount_of_pos pos] at bound
      omega

/-- Only zeros are left out of the written digits. -/
theorem exists_zeros (d : Decimal) :
    ∃ t, Nat.toDigits 10 d.digits = d.significant ++ List.replicate t '0' := by
  have split := (Nat.toDigits 10 d.digits).reverse.takeWhile_append_dropWhile (p := (· == '0'))
  have zeros : (Nat.toDigits 10 d.digits).reverse.takeWhile (· == '0') =
      List.replicate ((Nat.toDigits 10 d.digits).reverse.takeWhile (· == '0')).length '0' :=
    List.eq_replicate_iff.mpr ⟨rfl, fun c member => by
      simpa using List.mem_takeWhile_imp member⟩
  refine ⟨((Nat.toDigits 10 d.digits).reverse.takeWhile (· == '0')).length, ?_⟩
  unfold significant
  rw [← List.reverse_replicate, ← zeros, ← List.reverse_append, split, List.reverse_reverse]

def written (d : Decimal) : Nat := Nat.ofDigitChars 10 d.significant 0

theorem digits_eq (d : Decimal) :
    ∃ t, (Nat.toDigits 10 d.digits).length = d.significant.length + t ∧
      d.digits = d.written * 10 ^ t := by
  obtain ⟨t, split⟩ := d.exists_zeros
  refine ⟨t, ?_, ?_⟩
  · rw [split, List.length_append, List.length_replicate]
  · have read := Nat.ofDigitChars_ten_toDigits (n := d.digits)
    rw [split, Nat.ofDigitChars_append, Nat.ofDigitChars_replicate_zero] at read
    rw [← read, mul_comm]
    rfl

section Positive

variable {d : Decimal} (pos : 0 < d.digits)
include pos

theorem written_pos : 0 < d.written := by
  obtain ⟨t, _, split⟩ := d.digits_eq
  exact Nat.pos_of_mul_pos_right (split ▸ pos)

theorem written_lt : d.written < 10 ^ d.significant.length := by
  obtain ⟨t, length, split⟩ := d.digits_eq
  have bound := lt_pow_digitCount pos
  rw [digitCount_of_pos pos, length, pow_add] at bound
  exact Nat.lt_of_mul_lt_mul_right (split.symm.trans_lt bound)

theorem value_eq : d.value = d.written * 10 ^ (d.leading + 1 - d.significant.length) := by
  obtain ⟨t, length, split⟩ := d.digits_eq
  have power : d.leading + 1 - d.significant.length = d.exponent + t := by
    unfold leading
    rw [digitCount_of_pos pos, length]
    push_cast
    ring
  have read : (d.digits : ℚ) = d.written * 10 ^ t := by exact_mod_cast split
  rw [power, value, read, zpow_add₀ (by norm_num), zpow_natCast]
  ring

theorem significant_length_pos : 0 < d.significant.length := by
  by_contra none
  have bound := written_lt pos
  rw [Nat.eq_zero_of_not_pos none] at bound
  exact absurd (written_pos pos) (by omega)

end Positive

theorem significant_length_le {d : Decimal} {n : Nat} (some : 0 < n) (few : d.digits < 10 ^ n) :
    d.significant.length ≤ n := by
  obtain ⟨t, length, _⟩ := d.digits_eq
  have bound := (Nat.length_toDigits_le_iff (by decide) some).mpr few
  omega

end Decimal

namespace Binary64.Interval

def Holds (i : Interval) (q : ℚ) : Prop :=
  if i.closed then i.low * 2 ^ i.scale ≤ q ∧ q ≤ i.high * 2 ^ i.scale
  else i.low * 2 ^ i.scale < q ∧ q < i.high * 2 ^ i.scale

def center (i : Interval) : ℚ := i.value * 2 ^ i.scale

variable {i : Interval} {k : Int}

theorem Holds.convex {p q r : ℚ} (first : i.Holds p) (last : i.Holds r) (le : p ≤ q)
    (le' : q ≤ r) : i.Holds q := by
  unfold Holds at *
  split at first
  · next closed =>
      rw [if_pos closed] at last ⊢
      exact ⟨first.1.trans le, le'.trans last.2⟩
  · next opens =>
      rw [if_neg opens] at last ⊢
      exact ⟨first.1.trans_le le, le'.trans_lt last.2⟩

/-! ## One grid -/

theorem zpow_mul_toNat {b : ℚ} (nonzero : b ≠ 0) (n : Int) :
    b ^ n * b ^ (-n).toNat = b ^ n.toNat := by
  rw [← zpow_natCast, ← zpow_natCast, ← zpow_add₀ nonzero]
  congr 1
  omega

theorem units_eq (i : Interval) (k : Int) : ∃ unit : ℚ, 0 < unit ∧
    ((i.units k).1 : ℚ) = 2 ^ i.scale * unit ∧ ((i.units k).2 : ℚ) = 10 ^ k * unit := by
  have twos := zpow_mul_toNat (b := 2) (by norm_num) i.scale
  have tens := zpow_mul_toNat (b := 10) (by norm_num) k
  refine ⟨2 ^ (-i.scale).toNat * 10 ^ (-k).toNat, by positivity, ?_, ?_⟩
  · rw [← mul_assoc, twos]
    unfold units
    exact_mod_cast rfl
  · rw [mul_left_comm, tens, mul_comm]
    unfold units
    exact_mod_cast rfl

theorem holds_iff {d : Nat} : i.holds k d = true ↔ i.Holds (d * 10 ^ k) := by
  obtain ⟨unit, pos, factor, step⟩ := i.units_eq k
  have left (a : Nat) : ((a * (i.units k).1 : Nat) : ℚ) = a * 2 ^ i.scale * unit := by
    rw [Nat.cast_mul, factor, mul_assoc]
  have right (b : Nat) : ((b * (i.units k).2 : Nat) : ℚ) = b * 10 ^ k * unit := by
    rw [Nat.cast_mul, step, mul_assoc]
  have le {a b : Nat} : a * (i.units k).1 ≤ b * (i.units k).2 ↔
      (a : ℚ) * 2 ^ i.scale ≤ b * 10 ^ k := by
    rw [← Nat.cast_le (α := ℚ), left, right, mul_le_mul_iff_of_pos_right pos]
  have ge {a b : Nat} : b * (i.units k).2 ≤ a * (i.units k).1 ↔
      (b : ℚ) * 10 ^ k ≤ a * 2 ^ i.scale := by
    rw [← Nat.cast_le (α := ℚ), left, right, mul_le_mul_iff_of_pos_right pos]
  unfold holds Holds
  dsimp only
  split
  · rw [Bool.and_eq_true, decide_eq_true_iff, decide_eq_true_iff, le, ge]
  · rw [Bool.and_eq_true, decide_eq_true_iff, decide_eq_true_iff, ← not_le, ← not_le, le, ge,
      not_le, not_le]

def below (i : Interval) (k : Int) : Nat := i.value * (i.units k).1 / (i.units k).2

theorem below_eq (i : Interval) (k : Int) : ∃ unit : ℚ, 0 < unit ∧
    i.center * unit = i.below k * (10 ^ k * unit) +
      ((i.value * (i.units k).1 % (i.units k).2 : Nat) : ℚ) ∧
    ((i.units k).2 : ℚ) = 10 ^ k * unit := by
  obtain ⟨unit, pos, factor, step⟩ := i.units_eq k
  refine ⟨unit, pos, ?_, step⟩
  have split : (i.value : ℚ) * (i.units k).1 =
      i.below k * (i.units k).2 + ((i.value * (i.units k).1 % (i.units k).2 : Nat) : ℚ) := by
    exact_mod_cast (Nat.div_add_mod' (i.value * (i.units k).1) (i.units k).2).symm
  rw [factor, step] at split
  rw [center, mul_assoc]
  exact split

theorem below_le : (i.below k : ℚ) * 10 ^ k ≤ i.center := by
  obtain ⟨unit, pos, split, _⟩ := i.below_eq k
  rw [← mul_le_mul_iff_of_pos_right pos, split, mul_assoc]
  exact le_add_of_nonneg_right (Nat.cast_nonneg _)

theorem lt_above : i.center < ((i.below k + 1 : Nat) : ℚ) * 10 ^ k := by
  obtain ⟨unit, pos, split, step⟩ := i.below_eq k
  have positive : 0 < (i.units k).2 := by
    have : (0 : ℚ) < (i.units k).2 := step ▸ by positivity
    exact_mod_cast this
  have less : ((i.value * (i.units k).1 % (i.units k).2 : Nat) : ℚ) < (i.units k).2 :=
    Nat.cast_lt.mpr (Nat.mod_lt _ positive)
  rw [← mul_lt_mul_iff_of_pos_right pos, split, Nat.cast_succ, add_mul, one_mul, add_mul, mul_assoc,
    ← step]
  exact add_lt_add_right less _

theorem nearer_below_iff : 2 * (i.value * (i.units k).1 % (i.units k).2) < (i.units k).2 ↔
    i.center - i.below k * 10 ^ k < ((i.below k + 1 : Nat) : ℚ) * 10 ^ k - i.center := by
  obtain ⟨unit, pos, split, step⟩ := i.below_eq k
  have scaled : i.center - i.below k * 10 ^ k < ((i.below k + 1 : Nat) : ℚ) * 10 ^ k - i.center ↔
      (i.center - i.below k * 10 ^ k) * unit <
        (((i.below k + 1 : Nat) : ℚ) * 10 ^ k - i.center) * unit :=
    (mul_lt_mul_iff_of_pos_right pos).symm
  rw [scaled, ← Nat.cast_lt (α := ℚ), Nat.cast_mul, step, sub_mul, sub_mul, split, Nat.cast_succ]
  push_cast
  constructor <;> intro less <;> linarith

theorem grid_le {c d : Nat} (le : c ≤ d) : (c : ℚ) * 10 ^ k ≤ d * 10 ^ k :=
  mul_le_mul_of_nonneg_right (Nat.cast_le.mpr le) (by positivity)

/-- The first number is nearer, or as near and no smaller. -/
def Beats (i : Interval) (p q : ℚ) : Prop :=
  |p - i.center| < |q - i.center| ∨ |p - i.center| = |q - i.center| ∧ q ≤ p

theorem beats_of_le {p q : ℚ} (le : q ≤ p) (below : p ≤ i.center) : i.Beats p q := by
  unfold Beats
  rw [abs_of_nonpos (sub_nonpos.mpr below), abs_of_nonpos (sub_nonpos.mpr (le.trans below))]
  rcases le.lt_or_eq with less | rfl
  · left
    linarith
  · exact Or.inr ⟨rfl, le_rfl⟩

theorem beats_of_ge {p q : ℚ} (le : p ≤ q) (above : i.center ≤ p) : i.Beats p q := by
  unfold Beats
  rw [abs_of_nonneg (sub_nonneg.mpr above), abs_of_nonneg (sub_nonneg.mpr (above.trans le))]
  rcases le.lt_or_eq with less | rfl
  · left
    linarith
  · exact Or.inr ⟨rfl, le_rfl⟩

theorem beats_across {p q : ℚ} (above : i.center ≤ p) (below : q ≤ i.center)
    (nearer : p - i.center ≤ i.center - q) : i.Beats p q := by
  unfold Beats
  rw [abs_of_nonneg (sub_nonneg.mpr above), abs_of_nonpos (sub_nonpos.mpr below), neg_sub]
  exact nearer.lt_or_eq.imp id fun same => ⟨same, below.trans above⟩

theorem cases_of_none (none : i.nearestOnGrid? k = none) :
    (i.holds k (i.below k) && i.below k != 0) = false ∧ i.holds k (i.below k + 1) = false := by
  unfold nearestOnGrid? at none
  dsimp only at none
  split at none
  · cases none
  · cases none
  · cases none
  · next lower upper => exact ⟨lower, upper⟩

/-- What is found is the point below or the point above, and the nearer one where both lie in the
interval. -/
theorem cases_of_some {d : Nat} (found : i.nearestOnGrid? k = some d) :
    (d = i.below k ∧ (i.holds k (i.below k) && i.below k != 0) = true ∧
      (i.holds k (i.below k + 1) = true →
        2 * (i.value * (i.units k).1 % (i.units k).2) < (i.units k).2)) ∨
    (d = i.below k + 1 ∧ i.holds k (i.below k + 1) = true ∧
      ((i.holds k (i.below k) && i.below k != 0) = true →
        ¬ 2 * (i.value * (i.units k).1 % (i.units k).2) < (i.units k).2)) := by
  unfold nearestOnGrid? at found
  dsimp only at found
  split at found
  · next lower upper =>
      split at found
      · next nearer => exact Or.inl ⟨(Option.some.inj found).symm, lower, fun _ => nearer⟩
      · next farther => exact Or.inr ⟨(Option.some.inj found).symm, upper, fun _ => farther⟩
  · next lower upper =>
      refine Or.inl ⟨(Option.some.inj found).symm, lower, fun held => ?_⟩
      exact absurd (upper.symm.trans held) Bool.false_ne_true
  · next lower upper =>
      refine Or.inr ⟨(Option.some.inj found).symm, upper, fun held => ?_⟩
      exact absurd (lower.symm.trans held) Bool.false_ne_true
  · cases found

section Grid

variable (wide : i.Holds i.center)
include wide

theorem holds_below {c : Nat} (pos : 0 < c) (le : c ≤ i.below k) (held : i.Holds (c * 10 ^ k)) :
    (i.holds k (i.below k) && i.below k != 0) = true := by
  rw [Bool.and_eq_true, bne_iff_ne]
  exact ⟨holds_iff.mpr (held.convex wide (grid_le le) below_le), (pos.trans_le le).ne'⟩

theorem holds_above {c : Nat} (less : i.below k < c) (held : i.Holds (c * 10 ^ k)) :
    i.holds k (i.below k + 1) = true :=
  holds_iff.mpr (wide.convex held lt_above.le (grid_le less))

theorem not_holds_of_none (none : i.nearestOnGrid? k = none) {c : Nat} (pos : 0 < c) :
    ¬ i.Holds (c * 10 ^ k) := by
  intro held
  have neither := cases_of_none none
  rcases Nat.lt_or_ge (i.below k) c with less | le
  · exact Bool.false_ne_true (neither.2.symm.trans (holds_above wide less held))
  · exact Bool.false_ne_true (neither.1.symm.trans (holds_below wide pos le held))

/-- The point that is found lies in the interval and beats every other one of its grid. -/
theorem nearest_of_some {d : Nat} (found : i.nearestOnGrid? k = some d) :
    0 < d ∧ i.Holds (d * 10 ^ k) ∧
      ∀ c : Nat, 0 < c → i.Holds (c * 10 ^ k) → i.Beats (d * 10 ^ k) (c * 10 ^ k) := by
  rcases cases_of_some found with ⟨rfl, here, nearer⟩ | ⟨rfl, here, nearer⟩
  · rw [Bool.and_eq_true, bne_iff_ne] at here
    refine ⟨Nat.pos_of_ne_zero here.2, holds_iff.mp here.1, fun c _ held => ?_⟩
    rcases Nat.lt_or_ge (i.below k) c with less | le
    · -- the point above lies in the interval too, so the point below was nearer
      have closer := nearer_below_iff.mp (nearer (holds_above wide less held))
      have past : ((i.below k + 1 : Nat) : ℚ) * 10 ^ k ≤ c * 10 ^ k := grid_le less
      left
      rw [abs_of_nonpos (sub_nonpos.mpr below_le),
        abs_of_nonneg (sub_nonneg.mpr (lt_above.le.trans past))]
      linarith
    · exact beats_of_le (grid_le le) below_le
  · refine ⟨Nat.succ_pos _, holds_iff.mp here, fun c pos held => ?_⟩
    rcases Nat.lt_or_ge (i.below k) c with less | le
    · exact beats_of_ge (grid_le less) lt_above.le
    · have closer := not_lt.mp (nearer_below_iff.not.mp (nearer (holds_below wide pos le held)))
      have under : (c : ℚ) * 10 ^ k ≤ i.below k * 10 ^ k := grid_le le
      exact beats_across lt_above.le (under.trans below_le) (by linarith)

end Grid

/-! ## The power of ten under the number -/

theorem center_eq (i : Interval) : i.center =
    (i.value * Nat.pow 2 i.scale.toNat : Nat) / (Nat.pow 2 (-i.scale).toNat : Nat) := by
  have twos := zpow_mul_toNat (b := 2) (by norm_num) i.scale
  have cast (n : Nat) : ((Nat.pow 2 n : Nat) : ℚ) = 2 ^ n := by exact_mod_cast rfl
  rw [center, Nat.cast_mul, cast, cast, eq_div_iff (by positivity), mul_assoc, twos]

theorem quotient_bounds {num den : Nat} (pos : 0 < den) (large : den ≤ num) :
    (10 : ℚ) ^ ((Decimal.digitCount (num / den) : Int) - 1) ≤ num / den ∧
      (num : ℚ) / den < 10 ^ (Decimal.digitCount (num / den) : Int) := by
  have some : 0 < num / den := Nat.div_pos large pos
  have low := (Nat.mul_le_mul_right den (Decimal.pow_digitCount_le some)).trans
    (Nat.div_mul_le_self num den)
  have high := (Nat.div_lt_iff_lt_mul pos).mp (Decimal.lt_pow_digitCount some)
  have power : (Decimal.digitCount (num / den) : Int) - 1 =
      ((Decimal.digitCount (num / den) - 1 : Nat) : Int) := by
    have := Decimal.digitCount_pos some
    omega
  have positive : (0 : ℚ) < den := Nat.cast_pos.mpr pos
  rw [power, zpow_natCast, zpow_natCast, le_div_iff₀ positive, div_lt_iff₀ positive]
  exact ⟨by exact_mod_cast low, by exact_mod_cast high⟩

/-- Below one, the quotient the other way is rounded up and lowered by one. -/
theorem reciprocal_bounds {num den : Nat} (pos : 0 < num) (small : num < den) :
    (10 : ℚ) ^ (-(Decimal.digitCount ((den + num - 1) / num - 1) : Int)) ≤ num / den ∧
      (num : ℚ) / den < 10 ^ (-(Decimal.digitCount ((den + num - 1) / num - 1) : Int) + 1) := by
  have rounded := Nat.div_add_mod (den + num - 1) num
  have rest := Nat.mod_lt (den + num - 1) pos
  have several : 2 ≤ (den + num - 1) / num := by
    rw [Nat.le_div_iff_mul_le pos]
    omega
  obtain ⟨c, quotient⟩ : ∃ c, (den + num - 1) / num = c + 1 :=
    ⟨_, (Nat.sub_add_cancel (by omega)).symm⟩
  rw [quotient] at rounded several ⊢
  rw [Nat.mul_succ] at rounded
  have some : 0 < c := by omega
  have low : num * 10 ^ (Decimal.digitCount c - 1) < den := by
    have := Nat.mul_le_mul_left num (Decimal.pow_digitCount_le some)
    omega
  have high : den ≤ num * 10 ^ Decimal.digitCount c := by
    have := Nat.mul_le_mul_left num (Nat.succ_le_of_lt (Decimal.lt_pow_digitCount some))
    rw [Nat.mul_succ] at this
    omega
  have power : -(Decimal.digitCount c : Int) + 1 = -((Decimal.digitCount c - 1 : Nat) : Int) := by
    have := Decimal.digitCount_pos some
    omega
  have positive : (0 : ℚ) < den := Nat.cast_pos.mpr (by omega)
  rw [Nat.add_sub_cancel, power, zpow_neg, zpow_neg, zpow_natCast, zpow_natCast, inv_eq_one_div,
    inv_eq_one_div, div_le_div_iff₀ (by positivity) positive,
    div_lt_div_iff₀ positive (by positivity), one_mul]
  exact ⟨by exact_mod_cast high, by exact_mod_cast low⟩

theorem leading_bounds (pos : 0 < i.value) :
    (10 : ℚ) ^ i.leading ≤ i.center ∧ i.center < 10 ^ (i.leading + 1) := by
  have above : 0 < i.value * Nat.pow 2 i.scale.toNat := Nat.mul_pos pos (Nat.pow_pos (by decide))
  rw [center_eq]
  unfold leading
  dsimp only
  split
  · next large =>
      rw [sub_add_cancel]
      exact quotient_bounds (Nat.pow_pos (by decide)) large
  · next small => exact reciprocal_bounds above (not_le.mp small)

theorem pow_mul_grid (n : Nat) (e : Int) : ((10 ^ n : Nat) : ℚ) * 10 ^ (e - n) = 10 ^ e := by
  rw [Nat.cast_pow, ← zpow_natCast, Nat.cast_ofNat, ← zpow_add₀ (by norm_num), add_sub_cancel]

theorem leading_on_grid (i : Interval) (n : Nat) :
    ((10 ^ n : Nat) : ℚ) * 10 ^ (i.leading + 1 - (n + 1 : Nat)) = 10 ^ i.leading := by
  have power : i.leading + 1 - (n + 1 : Nat) = i.leading - n := by omega
  rw [power, pow_mul_grid]

/-- A decimal of a few digits in the interval is on the grid with as many digits, or a point of that
grid lies between it and the number. -/
theorem held_on_grid (pos : 0 < i.value) (wide : i.Holds i.center) {n c : Nat} {e : Int}
    (some : 0 < c) (few : c < 10 ^ n) (held : i.Holds (c * 10 ^ e)) :
    ∃ d : Nat, 0 < d ∧ i.Holds (d * 10 ^ (i.leading + 1 - n)) ∧
      ((d : ℚ) * 10 ^ (i.leading + 1 - n) = c * 10 ^ e ∨
        (c : ℚ) * 10 ^ e < d * 10 ^ (i.leading + 1 - n) ∧
          (d : ℚ) * 10 ^ (i.leading + 1 - n) ≤ i.center) := by
  rcases le_or_gt (i.leading + 1 - n) e with on | off
  · obtain ⟨t, rfl⟩ := Int.le.dest on
    have same : ((c * 10 ^ t : Nat) : ℚ) * 10 ^ (i.leading + 1 - n) =
        c * 10 ^ (i.leading + 1 - n + t) := by
      rw [zpow_add₀ (by norm_num), zpow_natCast]
      push_cast
      ring
    exact ⟨c * 10 ^ t, by positivity, same ▸ held, Or.inl same⟩
  · cases n with
    | zero => omega
    | succ n =>
        have bound : (c : ℚ) * 10 ^ e < 10 ^ i.leading := by
          calc (c : ℚ) * 10 ^ e < (10 ^ (n + 1) : Nat) * 10 ^ e :=
                mul_lt_mul_of_pos_right (Nat.cast_lt.mpr few) (by positivity)
            _ = 10 ^ ((n + 1 : Nat) + e) := by
                rw [zpow_add₀ (by norm_num), zpow_natCast]
                push_cast
                rfl
            _ ≤ 10 ^ i.leading := zpow_le_zpow_right₀ (by norm_num) (by omega)
        have top := (leading_bounds pos).1
        refine ⟨10 ^ n, by positivity, ?_⟩
        rw [leading_on_grid]
        exact ⟨held.convex wide bound.le top, Or.inr ⟨bound, top⟩⟩

theorem not_holds_of_few (pos : 0 < i.value) (wide : i.Holds i.center) {n c : Nat} {e : Int}
    (none : i.nearestOnGrid? (i.leading + 1 - n) = none) (some : 0 < c) (few : c < 10 ^ n) :
    ¬ i.Holds (c * 10 ^ e) := by
  intro held
  obtain ⟨d, positive, inside, _⟩ := held_on_grid pos wide some few held
  exact not_holds_of_none wide none positive inside

theorem beats_few (pos : 0 < i.value) (wide : i.Holds i.center) {n c d : Nat} {e : Int}
    (found : i.nearestOnGrid? (i.leading + 1 - n) = some d) (some : 0 < c) (few : c < 10 ^ n)
    (held : i.Holds (c * 10 ^ e)) : i.Beats (d * 10 ^ (i.leading + 1 - n)) (c * 10 ^ e) := by
  obtain ⟨_, _, beats⟩ := nearest_of_some wide found
  obtain ⟨a, positive, inside, same | ⟨less, le⟩⟩ := held_on_grid pos wide some few held
  · exact same ▸ beats a positive inside
  · left
    have closer : |(a : ℚ) * 10 ^ (i.leading + 1 - n) - i.center| <
        |(c : ℚ) * 10 ^ e - i.center| := by
      rw [abs_of_nonpos (sub_nonpos.mpr le), abs_of_nonpos (sub_nonpos.mpr (less.le.trans le))]
      linarith
    exact ((beats a positive inside).elim le_of_lt fun as => as.1.le).trans_lt closer

/-- At most one grid step lies between the number and what is found, so no digit is carried beyond
a power of ten. -/
theorem digits_le (pos : 0 < i.value) {n d : Nat}
    (found : i.nearestOnGrid? (i.leading + 1 - n) = some d) : d ≤ 10 ^ n := by
  have below : i.below (i.leading + 1 - n) < 10 ^ n := by
    have grid : (0 : ℚ) < 10 ^ (i.leading + 1 - n) := by positivity
    have less := (below_le (i := i) (k := i.leading + 1 - n)).trans_lt
      ((leading_bounds pos).2.trans_eq (pow_mul_grid n _).symm)
    rw [mul_lt_mul_iff_of_pos_right grid] at less
    exact_mod_cast less
  rcases cases_of_some found with ⟨rfl, _⟩ | ⟨rfl, _⟩
  · exact below.le
  · exact below

theorem found_of_narrow (wide : i.Holds i.center) (below : (i.low : ℚ) * 2 ^ i.scale < i.center)
    (above : i.center < i.high * 2 ^ i.scale)
    (narrow : (10 : ℚ) ^ k < i.high * 2 ^ i.scale - i.low * 2 ^ i.scale) :
    i.nearestOnGrid? k ≠ none := by
  intro none
  have inside {q : ℚ} (low : (i.low : ℚ) * 2 ^ i.scale < q) (high : q < i.high * 2 ^ i.scale) :
      i.Holds q := by
    unfold Holds
    split
    · exact ⟨low.le, high.le⟩
    · exact ⟨low, high⟩
  rcases lt_or_ge ((i.low : ℚ) * 2 ^ i.scale) (i.below k * 10 ^ k) with less | le
  · have positive : 0 < i.below k := by
      by_contra zero
      rw [Nat.eq_zero_of_not_pos zero, Nat.cast_zero, zero_mul] at less
      exact absurd less (not_lt.mpr (by positivity))
    exact not_holds_of_none wide none positive (inside less (below_le.trans_lt above))
  · refine not_holds_of_none wide none (Nat.succ_pos (i.below k))
      (inside (below.trans lt_above) ?_)
    push_cast
    linarith

/-! ## The search -/

theorem search_eq_some {d : Decimal} {tries count : Nat} (found : i.search tries count = some d) :
    ∃ n, count ≤ n ∧ d.exponent = i.leading + 1 - n ∧
      i.nearestOnGrid? (i.leading + 1 - n) = some d.digits ∧
      ∀ m, count ≤ m → m < n → i.nearestOnGrid? (i.leading + 1 - m) = none := by
  induction tries generalizing count with
  | zero => cases found
  | succ tries ih =>
      unfold search at found
      dsimp only at found
      split at found
      · next digits here =>
          obtain rfl := Option.some.inj found
          exact ⟨count, le_rfl, rfl, here, fun m le less => absurd le (not_le.mpr less)⟩
      · next missed =>
          obtain ⟨n, le, exponent, here, before⟩ := ih found
          refine ⟨n, by omega, exponent, here, fun m le less => ?_⟩
          rcases le.eq_or_lt with rfl | later
          · exact missed
          · exact before m later less

theorem search_ne_none {tries count n : Nat} (le : count ≤ n) (less : n < count + tries)
    (here : i.nearestOnGrid? (i.leading + 1 - n) ≠ none) : i.search tries count ≠ none := by
  induction tries generalizing count with
  | zero => omega
  | succ tries ih =>
      unfold search
      dsimp only
      split
      · exact Option.some_ne_none _
      · next missed =>
          rcases le.eq_or_lt with rfl | later
          · exact absurd missed here
          · exact ih later (by omega)

theorem significant_le_of_first (pos : 0 < i.value) (wide : i.Holds i.center) {d : Decimal}
    {n : Nat} (enough : 1 ≤ n) (here : i.nearestOnGrid? (i.leading + 1 - n) = some d.digits)
    (before : ∀ m, 1 ≤ m → m < n → i.nearestOnGrid? (i.leading + 1 - m) = none) :
    d.significant.length ≤ n := by
  rcases (digits_le pos here).lt_or_eq with less | carried
  · exact Decimal.significant_length_le enough less
  · -- a power of ten has one digit, so the first grid had it already
    have inside := (nearest_of_some wide here).2.1
    rw [carried, pow_mul_grid] at inside
    have first : n = 1 := by
      by_contra more
      refine not_holds_of_few (c := 1) pos wide (before 1 le_rfl (by omega)) Nat.one_pos (by decide)
        (e := i.leading + 1) ?_
      rwa [Nat.cast_one, one_mul]
    unfold Decimal.significant
    rw [carried, first]
    decide

end Binary64.Interval

namespace Binary64

variable {x : Binary64}

def magnitude (x : Binary64) : ℚ := x.significand * 2 ^ x.scale

theorem center_interval (x : Binary64) : x.interval.center = x.magnitude := by
  unfold interval Interval.center magnitude
  dsimp only
  rw [zpow_sub₀ (by norm_num)]
  push_cast
  ring

theorem significand_pos (nonzero : x.isZero = false) : 0 < x.significand := by
  unfold isZero at nonzero
  unfold significand
  split
  · next least =>
      rw [least, Bool.true_and, beq_eq_false_iff_ne] at nonzero
      exact Nat.pos_of_ne_zero nonzero
  · exact Nat.add_pos_left (Nat.pow_pos (by decide)) _

theorem significand_lt (x : Binary64) : x.significand < 2 ^ 53 := by
  have bound : x.fraction < 2 ^ 52 := Nat.mod_lt _ (Nat.pow_pos (by decide))
  unfold significand
  change _ < 2 ^ 52 + 2 ^ 52
  split
  · omega
  · exact Nat.add_lt_add_left bound _

section Nonzero

variable (nonzero : x.isZero = false)
include nonzero

theorem value_pos : 0 < x.interval.value := Nat.mul_pos (by decide) (significand_pos nonzero)

theorem low_lt_center : (x.interval.low : ℚ) * 2 ^ x.interval.scale < x.interval.center := by
  have pos := significand_pos nonzero
  have less : x.interval.low < x.interval.value := by
    unfold interval
    dsimp only
    split <;> omega
  exact mul_lt_mul_of_pos_right (Nat.cast_lt.mpr less) (by positivity)

end Nonzero

theorem center_lt_high (x : Binary64) :
    x.interval.center < x.interval.high * 2 ^ x.interval.scale :=
  mul_lt_mul_of_pos_right (Nat.cast_lt.mpr (Nat.lt_add_of_pos_right (by decide))) (by positivity)

theorem holds_center (nonzero : x.isZero = false) : x.interval.Holds x.interval.center := by
  have low := low_lt_center nonzero
  have high := x.center_lt_high
  unfold Interval.Holds
  split
  · exact ⟨low.le, high.le⟩
  · exact ⟨low, high⟩

theorem found_enoughDigits (nonzero : x.isZero = false) :
    x.interval.nearestOnGrid? (x.interval.leading + 1 - enoughDigits) ≠ none := by
  refine Interval.found_of_narrow (holds_center nonzero) (low_lt_center nonzero) x.center_lt_high ?_
  -- the steps of the grid are at most a part in 10 ^ 16 of the number
  have fine : (10 : ℚ) ^ (x.interval.leading + 1 - enoughDigits) * 10 ^ 16 ≤ x.interval.center := by
    rw [mul_comm]
    exact_mod_cast (x.interval.leading_on_grid 16).trans_le
      (Interval.leading_bounds (value_pos nonzero)).1
  have unit : (0 : ℚ) < 2 ^ x.interval.scale := by positivity
  have wide : (x.interval.value : ℚ) < (x.interval.high - x.interval.low) * 10 ^ 16 := by
    have pos := significand_pos nonzero
    have bound := x.significand_lt
    have whole : x.interval.value + x.interval.low * 10 ^ 16 < x.interval.high * 10 ^ 16 := by
      unfold interval
      dsimp only
      split
      · next least =>
          have exact : x.significand = 2 ^ 52 := by simpa using least
          omega
      · omega
    have : (x.interval.value : ℚ) + x.interval.low * 10 ^ 16 < x.interval.high * 10 ^ 16 := by
      exact_mod_cast whole
    linarith
  have scaled := mul_lt_mul_of_pos_right wide unit
  rw [Interval.center] at fine
  linarith

/-- Every number but zero has shortest digits: they stand for a decimal in the rounding interval, no
decimal with fewer digits lies in it, and none with as many is nearer. -/
theorem shortest_spec (nonzero : x.isZero = false) :
    ∃ d, x.shortest? = some d ∧ 0 < d.digits ∧ x.interval.Holds d.value ∧
      ∀ other : Decimal, 0 < other.digits → x.interval.Holds other.value →
        d.significant.length ≤ other.significant.length ∧
          (other.significant.length = d.significant.length →
            x.interval.Beats d.value other.value) := by
  have pos := value_pos nonzero
  have wide := holds_center nonzero
  obtain ⟨d, found⟩ : ∃ d, x.interval.search enoughDigits 1 = some d :=
    Option.ne_none_iff_exists'.mp
      (Interval.search_ne_none (by decide) (by decide) (found_enoughDigits nonzero))
  obtain ⟨n, some, exponent, here, before⟩ := Interval.search_eq_some found
  have value : d.value = d.digits * 10 ^ (x.interval.leading + 1 - n) := by
    rw [Decimal.value, exponent]
  obtain ⟨positive, inside, _⟩ := Interval.nearest_of_some wide here
  rw [← value] at inside
  have few := Interval.significant_le_of_first pos wide some here before
  refine ⟨d, found, positive, inside, fun other more held => ?_⟩
  have length := Decimal.significant_length_pos more
  rw [Decimal.value_eq more] at held
  have least : n ≤ other.significant.length := by
    by_contra fewer
    exact Interval.not_holds_of_few pos wide (before _ length (not_le.mp fewer))
      (Decimal.written_pos more) (Decimal.written_lt more) held
  refine ⟨few.trans least, fun same => ?_⟩
  have exactly : other.significant.length = n := by omega
  rw [value, Decimal.value_eq more]
  exact Interval.beats_few pos wide here (Decimal.written_pos more)
    (exactly ▸ Decimal.written_lt more) held

end Binary64

end FramePlacement
