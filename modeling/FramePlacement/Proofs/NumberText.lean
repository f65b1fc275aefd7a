import FramePlacement.Literal.Number
import FramePlacement.Proofs.ShortestDigits
/-!
# What the text of a number stands for

Both ways of writing put a point among the shortest digits, and only zeros are added to them.  Read
as places before the point, places after it and a power of ten, the text stands for the decimal
again.
-/

set_option autoImplicit false

namespace FramePlacement

/-- The number written by the places before a point, those after it, and a power of ten. -/
def numeral (whole places : List Char) (power : Int) : ℚ :=
  Nat.ofDigitChars 10 (whole ++ places) 0 * 10 ^ (power - places.length)

/-- Zeros before the digits add nothing, zeros behind them powers of ten. -/
theorem numeral_eq {whole places : List Char} (before : Nat) (digits : List Char) (behind : Nat)
    (power : Int) (split : whole ++ places =
      List.replicate before '0' ++ digits ++ List.replicate behind '0') :
    numeral whole places power =
      Nat.ofDigitChars 10 digits 0 * 10 ^ (behind + power - places.length) := by
  unfold numeral
  rw [split, Nat.ofDigitChars_append, Nat.ofDigitChars_append, Nat.ofDigitChars_replicate_zero,
    Nat.ofDigitChars_replicate_zero, Nat.mul_zero, add_sub_assoc, zpow_add₀ (by norm_num),
    zpow_natCast]
  push_cast
  ring

namespace Decimal

variable {d : Decimal}

theorem isDigit_of_significant {c : Char} (member : c ∈ d.significant) : c.isDigit = true := by
  obtain ⟨t, split⟩ := d.exists_zeros
  have inside : c ∈ Nat.toDigits 10 d.digits := split ▸ List.mem_append_left _ member
  exact Nat.isDigit_of_mem_toDigits (by decide) (by decide) inside

theorem positional_split (pos : 0 < d.digits) :
    ∃ whole places before behind, d.positional = String.ofList (whole ++ '.' :: places) ∧
      whole ≠ [] ∧ places ≠ [] ∧
      whole ++ places = List.replicate before '0' ++ d.significant ++ List.replicate behind '0' ∧
      (behind : Int) - places.length = d.leading + 1 - d.significant.length := by
  have nonempty : d.significant ≠ [] := List.ne_nil_of_length_pos (significant_length_pos pos)
  unfold positional zeros
  dsimp only
  split
  · next small =>
      refine ⟨['0'], List.replicate (-(d.leading + 1)).toNat '0' ++ d.significant,
        (-(d.leading + 1)).toNat + 1, 0, by simp, by simp,
        fun empty => nonempty (List.append_eq_nil_iff.mp empty).2,
        by simp [List.replicate_succ], ?_⟩
      rw [List.length_append, List.length_replicate]
      omega
  · next large =>
      split
      · next short =>
          refine ⟨d.significant ++
              List.replicate ((d.leading + 1).toNat - d.significant.length) '0', ['0'],
            0, (d.leading + 1).toNat - d.significant.length + 1, by simp, by simp [nonempty],
            by simp, by simp [List.replicate_succ'], ?_⟩
          rw [List.length_singleton]
          omega
      · next long =>
          refine ⟨d.significant.take (d.leading + 1).toNat,
            d.significant.drop (d.leading + 1).toNat, 0, 0, rfl, List.ne_nil_of_length_pos ?_,
            List.ne_nil_of_length_pos ?_, by simp, ?_⟩
          · rw [List.length_take]
            omega
          · rw [List.length_drop]
            omega
          · rw [List.length_drop]
            omega

/-- Positional writing has digits on both sides of the point and stands for the decimal. -/
theorem positional_reads (pos : 0 < d.digits) :
    ∃ whole places, d.positional = String.ofList (whole ++ '.' :: places) ∧
      whole ≠ [] ∧ places ≠ [] ∧ (∀ c ∈ whole ++ places, c.isDigit = true) ∧
      numeral whole places 0 = d.value := by
  obtain ⟨whole, places, before, behind, text, front, back, split, length⟩ := positional_split pos
  refine ⟨whole, places, text, front, back, fun c member => ?_, ?_⟩
  · have zero {n : Nat} (member : c ∈ List.replicate n '0') : c.isDigit = true := by
      rw [List.eq_of_mem_replicate member]
      decide
    rw [split, List.mem_append, List.mem_append] at member
    exact member.elim (fun inside => inside.elim zero isDigit_of_significant) zero
  · rw [numeral_eq before d.significant behind 0 split, value_eq pos, written, add_zero, length]

/-- Scientific writing has one digit before the point and stands for the decimal. -/
theorem scientific_reads (pos : 0 < d.digits) :
    ∃ first places, d.significant = first :: places ∧
      d.scientific = String.ofList (first :: (if places = [] then [] else '.' :: places)) ++ "e" ++
        toString d.leading ∧
      numeral [first] places d.leading = d.value := by
  rw [value_eq pos]
  cases digits : d.significant with
  | nil => exact absurd (significant_length_pos pos) (by rw [digits]; decide)
  | cons first places =>
      refine ⟨first, places, rfl, ?_, ?_⟩
      · unfold scientific
        rw [digits]
        cases places <;> rfl
      · unfold numeral written
        rw [digits, List.length_cons]
        congr 2
        push_cast
        ring

end Decimal

/-- The text of a number that is neither zero nor infinite stands for a number in its rounding
interval. -/
theorem Binary64.magnitudeText_reads {x : Binary64} (nonzero : x.isZero = false)
    (finite : x.isInfinite = false) :
    ∃ whole places power, x.interval.Holds (numeral whole places power) ∧ whole ≠ [] ∧
      (x.magnitudeText = String.ofList (whole ++ '.' :: places) ∧ places ≠ [] ∧ power = 0 ∨
        x.magnitudeText = String.ofList (whole ++ (if places = [] then [] else '.' :: places)) ++
          "e" ++ toString power) := by
  obtain ⟨d, found, pos, inside, _⟩ := shortest_spec nonzero
  unfold magnitudeText
  rw [finite, nonzero, found]
  dsimp only
  rw [if_neg Bool.false_ne_true, if_neg Bool.false_ne_true]
  split
  · obtain ⟨whole, places, text, front, back, _, reads⟩ := Decimal.positional_reads pos
    exact ⟨whole, places, 0, reads ▸ inside, front, Or.inl ⟨text, back, rfl⟩⟩
  · obtain ⟨first, places, _, text, reads⟩ := Decimal.scientific_reads pos
    exact ⟨[first], places, d.leading, reads ▸ inside, List.cons_ne_nil _ _, Or.inr text⟩

/-! One tenth, the first number that is written scientifically again, and one that lies midway
between two decimals. -/

example : (Binary64.mk 0x3FB999999999999A).magnitudeText = "0.1" := by decide +kernel

example : (Binary64.mk 0x4341C37937E08000).magnitudeText = "1e16" := by decide +kernel

example : (Binary64.mk 0x3E60000000000000).magnitudeText = "2.9802322387695313e-8" := by
  decide +kernel

end FramePlacement
