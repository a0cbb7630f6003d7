import ErrorFree.Binary64.Basic

/-!
# Decimal numbers

A decimal is a natural number of digits and a power of ten.  It is what is read from and written
to text; `toBinary64` takes it to the closest binary number, rounding once.
-/

namespace ErrorFree

/-- The number `digits · 10 ^ exponent`. -/
structure Decimal where
  digits : Nat
  exponent : Int
  deriving DecidableEq, Inhabited

namespace Decimal

/-- The binary number closest to a decimal, with the given sign (which a zero keeps). -/
def toBinary64 (negative : Bool) (d : Decimal) : Binary64 :=
  Binary64.nearest negative (d.digits * Nat.pow 10 d.exponent.toNat)
    (Nat.pow 10 (-d.exponent).toNat) Binary64.oneExponent

/-- The digits as characters, most significant first; zero is one digit. -/
def digitChars (d : Decimal) : List Char := Nat.toDigits 10 d.digits

/-- The exponent of the leading digit: the decimal is `d.ddd · 10 ^ leadingExponent`. -/
def leadingExponent (d : Decimal) : Int := d.exponent + d.digitChars.length - 1

/-- The same number without zeros at the end of its digits. -/
def trim (d : Decimal) : Decimal :=
  if d.digits ≠ 0 ∧ d.digits % 10 = 0 then trim ⟨d.digits / 10, d.exponent + 1⟩ else d
  termination_by d.digits
  decreasing_by omega

end Decimal

end ErrorFree
