import ErrorFree.Decimal.Basic

/-!
# Decimals as text

Two layouts of the same digits: positional, and with an exponent.  Which one is used, and how the
exponent is spelt, is decided by the module that owns the output.
-/

namespace ErrorFree

namespace Decimal

/-- Positional layout: `12300`, `1.25`, `0.0004`.  A whole number ends with `wholeEnd`. -/
def positional (wholeEnd : List Char) (d : Decimal) : List Char :=
  let digits := d.digitChars
  let places := (-d.exponent).toNat
  if places = 0 then digits ++ List.replicate d.exponent.toNat '0' ++ wholeEnd
  else if places < digits.length then
    digits.take (digits.length - places) ++ '.' :: digits.drop (digits.length - places)
  else '0' :: '.' :: (List.replicate (places - digits.length) '0' ++ digits)

/-- How an exponent is spelt. -/
structure ExponentStyle where
  /-- The letter in front of the exponent. -/
  mark : Char
  /-- The least number of digits, filled up with zeros. -/
  width : Nat

/-- The exponent with its mark and sign; the sign is always written. -/
def ExponentStyle.render (style : ExponentStyle) (e : Int) : List Char :=
  let digits := Nat.toDigits 10 e.natAbs
  style.mark :: (if e < 0 then '-' else '+') ::
    (List.replicate (style.width - digits.length) '0' ++ digits)

/-- Layout with an exponent: `1.5E-05`. -/
def scientific (style : ExponentStyle) (d : Decimal) : List Char :=
  let significand :=
    match d.digitChars with
    | [] => []
    | [c] => [c]
    | c :: rest => c :: '.' :: rest
  significand ++ style.render d.leadingExponent

end Decimal

end ErrorFree
