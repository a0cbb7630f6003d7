import ErrorFree.Decimal.Basic

/-!
# The shortest decimal that reads back

**Input.**  The magnitude of a finite number, as an exact fraction.

**Algorithm.**  For `1, 2, …, 17` digits, the two neighbours of the exact value on the grid of that
many digits are tried.  The first grid on which one of them reads back to the same number is taken;
if both do, the closer one, and if both are equally close, the one that the tie rule names.

**Result.**  `shortest` gives a decimal without zeros at its end.  Seventeen digits are always
enough, so the last grid always has a hit.
-/

namespace ErrorFree

namespace Decimal

/-- Which of two equally close neighbours is taken. -/
inductive Tie where
  /-- The greater one. -/
  | up
  /-- The one whose last digit is even. -/
  | even
  deriving DecidableEq

/-- The exponent of the leading digit of a number other than zero: the greatest `k` for which
`10 ^ k` is not above its magnitude. -/
def leadingExponentOf (x : Binary64) : Int :=
  let whole := x.numerator / x.denominator
  if whole ≠ 0 then (Nat.toDigits 10 whole).length - 1
  else
    let k := (Nat.toDigits 10 (x.denominator / x.numerator)).length
    if x.denominator ≤ x.numerator * Nat.pow 10 (k - 1) then 1 - (k : Int) else -(k : Int)

/-- How often `10 ^ p` goes into the magnitude of a number. -/
def gridFloor (x : Binary64) (p : Int) : Nat :=
  x.numerator * Nat.pow 10 (-p).toNat / (x.denominator * Nat.pow 10 p.toNat)

/-- The magnitude of a number compared with the middle between `lower` and `lower + 1` on the grid
`10 ^ p`. -/
def compareMiddle (x : Binary64) (p : Int) (lower : Nat) : Ordering :=
  compare (2 * (x.numerator * Nat.pow 10 (-p).toNat))
    ((2 * lower + 1) * (x.denominator * Nat.pow 10 p.toNat))

/-- A decimal with the sign of a number reads back to that number. -/
def readsBack (x : Binary64) (d : Decimal) : Bool :=
  decide (d.toBinary64 x.isNegative = x)

/-- The decimal on the grid `10 ^ p` that reads back, if there is one. -/
def onGrid (tie : Tie) (x : Binary64) (p : Int) : Option Decimal :=
  let lower := gridFloor x p
  match readsBack x ⟨lower, p⟩, readsBack x ⟨lower + 1, p⟩ with
  | true, false => some ⟨lower, p⟩
  | false, true => some ⟨lower + 1, p⟩
  | false, false => none
  | true, true =>
      match compareMiddle x p lower, tie with
      | .lt, _ => some ⟨lower, p⟩
      | .gt, _ => some ⟨lower + 1, p⟩
      | .eq, .up => some ⟨lower + 1, p⟩
      | .eq, .even => some ⟨lower + lower % 2, p⟩

/-- The first hit on the grids `10 ^ p, 10 ^ (p - 1), …`, of which `more + 1` are tried; without
one, the point below the value on the last grid. -/
def firstHit (tie : Tie) (x : Binary64) (p : Int) : Nat → Decimal
  | 0 => (onGrid tie x p).getD ⟨gridFloor x p, p⟩
  | more + 1 => (onGrid tie x p).getD (firstHit tie x (p - 1) more)

/-- The shortest decimal that, with the sign of a finite number, reads back to that number. -/
def shortest (tie : Tie) (x : Binary64) : Decimal :=
  if x.numerator = 0 then ⟨0, 0⟩ else (firstHit tie x (leadingExponentOf x) 16).trim

end Decimal

end ErrorFree
