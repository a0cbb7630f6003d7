/-!
# Unsigned numbers in text

**Grammar.**  An optional plus, then one or more ASCII digits; leading zeros are allowed.

**Range.**  The value has to be below `2 ^ 64`; a larger one is refused, not cut.
-/

namespace ErrorFree

namespace Text

/-- The least number that is out of range. -/
def unsignedBound : Nat := Nat.pow 2 64

/-- The value of one or more digits. -/
def digitsValue? (text : List Char) : Option Nat :=
  if text ≠ [] ∧ text.all Char.isDigit then
    let n := Nat.ofDigitChars 10 text 0
    if n < unsignedBound then some n else none
  else none

/-- The number that a text spells. -/
def unsigned? : List Char → Option Nat
  | '+' :: digits => digitsValue? digits
  | text => digitsValue? text

end Text

end ErrorFree
