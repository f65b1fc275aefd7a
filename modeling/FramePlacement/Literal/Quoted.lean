import FramePlacement.Literal.Unprintable
/-!
# How string literals are written

A string stands in double quotes.  Six characters have an escape of their own, an unprintable
character is written by its code point, and every other character stands for itself.
-/

set_option autoImplicit false

namespace FramePlacement.Literal

/-- The digits of a code point in lower case hexadecimal, without padding. -/
def hexDigits (n : Nat) : List Char := Nat.toDigits 16 n

def escape (c : Char) : List Char :=
  match c with
  | '\x00' => ['\\', '0']
  | '\t' => ['\\', 't']
  | '\r' => ['\\', 'r']
  | '\n' => ['\\', 'n']
  | '"' => ['\\', '"']
  | '\\' => ['\\', '\\']
  | c =>
      if isUnprintable c then ['\\', 'u', '\x7b'] ++ hexDigits c.toNat ++ ['\x7d']
      else [c]

def quote (s : String) : String := String.ofList ('"' :: s.toList.flatMap escape ++ ['"'])

end FramePlacement.Literal
