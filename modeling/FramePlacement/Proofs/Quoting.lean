import FramePlacement.Literal.Quoted
/-!
# Quoted strings can be read back

Each written character is read back by itself, whatever follows it (`readChar_escape`), and none of
them starts with a double quote.  So a quoted string ends where it seems to end, and different
strings are written differently (`quote_append_inj`).  All that is written is printable.
-/

set_option autoImplicit false

namespace FramePlacement.Literal

def hexValue? (c : Char) : Option Nat :=
  if c.isDigit then some (c.toNat - '0'.toNat)
  else if 'a' ≤ c ∧ c ≤ 'f' then some (c.toNat - 'a'.toNat + 10)
  else none

/-- Reads hexadecimal digits up to a closing brace. -/
def readHex : Nat → List Char → Option (Nat × List Char)
  | _, [] => none
  | n, c :: rest =>
      if c = '\x7d' then some (n, rest)
      else (hexValue? c).bind fun digit => readHex (16 * n + digit) rest

def readEscaped : List Char → Option (Char × List Char)
  | '0' :: rest => some ('\x00', rest)
  | 't' :: rest => some ('\t', rest)
  | 'r' :: rest => some ('\r', rest)
  | 'n' :: rest => some ('\n', rest)
  | '"' :: rest => some ('"', rest)
  | '\\' :: rest => some ('\\', rest)
  | 'u' :: '\x7b' :: rest => (readHex 0 rest).map fun read => (Char.ofNat read.1, read.2)
  | _ => none

def readChar : List Char → Option (Char × List Char)
  | [] => none
  | c :: rest => if c = '\\' then readEscaped rest else some (c, rest)

theorem readHex_digit {d : Nat} (small : d < 16) (n : Nat) (rest : List Char) :
    readHex n (d.digitChar :: rest) = readHex (16 * n + d) rest := by
  have digit : ∀ d < 16, d.digitChar ≠ '\x7d' ∧ hexValue? d.digitChar = some d := by decide
  rw [readHex, if_neg (digit d small).1, (digit d small).2]
  rfl

theorem readHex_hexDigits (n : Nat) (rest : List Char) :
    readHex 0 (hexDigits n ++ rest) = readHex n rest := by
  unfold hexDigits
  induction n using Nat.strongRecOn generalizing rest with
  | ind n ih =>
      rw [Nat.toDigits_eq_if (by decide)]
      split
      · next small => exact (readHex_digit small 0 rest).trans (by rw [Nat.mul_zero, Nat.zero_add])
      · next large =>
          rw [List.append_assoc, ih _ (Nat.div_lt_self (by omega) (by decide))]
          exact (readHex_digit (Nat.mod_lt n (by decide)) _ rest).trans
            (by rw [Nat.div_add_mod])

/-- A written character is read back, whatever follows it. -/
theorem readChar_escape (c : Char) (rest : List Char) :
    readChar (escape c ++ rest) = some (c, rest) := by
  unfold escape
  split
  · rfl
  · rfl
  · rfl
  · rfl
  · rfl
  · rfl
  · next _ _ _ _ _ noSlash =>
      split
      · change (readHex 0 (hexDigits c.toNat ++ ['\x7d'] ++ rest)).map _ = _
        rw [List.append_assoc, readHex_hexDigits]
        change some (Char.ofNat c.toNat, rest) = _
        rw [Char.ofNat_toNat]
      · exact if_neg noSlash

theorem escape_append_ne (c : Char) (rest more : List Char) : escape c ++ rest ≠ '"' :: more := by
  intro same
  have read := readChar_escape c rest
  rw [same] at read
  obtain ⟨rfl, rfl⟩ := Prod.mk.inj (Option.some.inj read)
  exact absurd (List.cons.inj same).1 (by decide)

theorem flatMap_escape_inj {xs ys more rest : List Char}
    (same : xs.flatMap escape ++ '"' :: more = ys.flatMap escape ++ '"' :: rest) :
    xs = ys ∧ more = rest := by
  induction xs generalizing ys with
  | nil =>
      cases ys with
      | nil => exact ⟨rfl, (List.cons.inj same).2⟩
      | cons y ys =>
          rw [List.flatMap_cons, List.append_assoc] at same
          exact absurd same.symm (escape_append_ne y _ _)
  | cons x xs ih =>
      cases ys with
      | nil =>
          rw [List.flatMap_cons, List.append_assoc] at same
          exact absurd same (escape_append_ne x _ _)
      | cons y ys =>
          rw [List.flatMap_cons, List.flatMap_cons, List.append_assoc, List.append_assoc] at same
          have read := readChar_escape x (xs.flatMap escape ++ '"' :: more)
          rw [same, readChar_escape] at read
          obtain ⟨rfl, tails⟩ := Prod.mk.inj (Option.some.inj read)
          obtain ⟨rfl, rfl⟩ := ih tails.symm
          exact ⟨rfl, rfl⟩

/-- The text of a string tells the string and where the text ends. -/
theorem quote_append_inj {s t : String} {more rest : List Char}
    (same : (quote s).toList ++ more = (quote t).toList ++ rest) : s = t ∧ more = rest := by
  unfold quote at same
  rw [String.toList_ofList, String.toList_ofList, List.cons_append, List.cons_append,
    List.append_assoc, List.append_assoc] at same
  obtain ⟨chars, rest⟩ := flatMap_escape_inj (List.cons.inj same).2
  exact ⟨String.toList_inj.mp chars, rest⟩

theorem exists_of_mem_hexDigits {n : Nat} {c : Char} (member : c ∈ hexDigits n) :
    ∃ d < 16, c = d.digitChar := by
  unfold hexDigits at member
  induction n using Nat.strongRecOn with
  | ind n ih =>
      rw [Nat.toDigits_eq_if (by decide)] at member
      split at member
      · next small => exact ⟨n, small, List.mem_singleton.mp member⟩
      · next large =>
          rcases List.mem_append.mp member with inside | last
          · exact ih _ (Nat.div_lt_self (by omega) (by decide)) inside
          · exact ⟨n % 16, Nat.mod_lt n (by decide), List.mem_singleton.mp last⟩

/-- Between the control characters at both ends, the characters below 128 are printable. -/
theorem printable_of_ascii {c : Char} (above : 0x20 ≤ c.toNat) (below : c.toNat < 0x7f) :
    isUnprintable c = false := by
  have apart : (unprintableRanges.all fun range => range.2 < 0x20 || 0x7f ≤ range.1) = true := by
    decide +kernel
  refine List.any_eq_false.mpr fun range member inside => ?_
  have outside := List.all_eq_true.mp apart range member
  rw [Bool.or_eq_true, decide_eq_true_iff, decide_eq_true_iff] at outside
  rw [Bool.and_eq_true, decide_eq_true_iff, decide_eq_true_iff] at inside
  omega

theorem printable_escape {c written : Char} (member : written ∈ escape c) :
    isUnprintable written = false := by
  have digits : ∀ d < 16, 0x20 ≤ d.digitChar.toNat ∧ d.digitChar.toNat < 0x7f := by decide
  have marks {l : List Char} (ascii : (l.all fun c => 0x20 ≤ c.toNat && c.toNat < 0x7f) = true)
      (member : written ∈ l) : isUnprintable written = false := by
    have inside := List.all_eq_true.mp ascii written member
    rw [Bool.and_eq_true, decide_eq_true_iff, decide_eq_true_iff] at inside
    exact printable_of_ascii inside.1 inside.2
  unfold escape at member
  split at member
  · exact marks (by decide) member
  · exact marks (by decide) member
  · exact marks (by decide) member
  · exact marks (by decide) member
  · exact marks (by decide) member
  · exact marks (by decide) member
  · split at member
    · rw [List.mem_append, List.mem_append] at member
      rcases member with (opening | inside) | closing
      · exact marks (by decide) opening
      · obtain ⟨d, small, rfl⟩ := exists_of_mem_hexDigits inside
        exact printable_of_ascii (digits d small).1 (digits d small).2
      · exact marks (by decide) closing
    · next printable =>
        rw [List.mem_singleton.mp member]
        exact Bool.not_eq_true _ ▸ printable

/-- A quoted string shows as it is. -/
theorem printable_quote {s : String} {c : Char} (member : c ∈ (quote s).toList) :
    isUnprintable c = false := by
  have mark : isUnprintable '"' = false := printable_of_ascii (by decide) (by decide)
  unfold quote at member
  rw [String.toList_ofList, List.mem_append, List.mem_cons, List.mem_flatMap] at member
  rcases member with (rfl | ⟨original, _, written⟩) | closing
  · exact mark
  · exact printable_escape written
  · rw [List.mem_singleton.mp closing]
    exact mark

/-! A combining accent is written by its code point. -/

example : quote "e\u0301é" = "\"e\\u\x7b301\x7dé\"" := by decide +kernel

end FramePlacement.Literal
