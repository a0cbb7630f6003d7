import ErrorFree.Binary64.Rounding

/-!
# Binary64 numbers

The one value type of the language: double precision numbers, written in exact integers.

**Representation.**  Every finite number is a whole multiple of the unit `2 ^ (-1074)`.  A finite
number is stored as a sign, a significand and an exponent, and stands for
`± significand · 2 ^ exponent` units.  The significand is odd, unless the number is zero, so that
two finite numbers of the same sign are equal exactly when their parts are, and the parts of small
whole numbers are small.  All not-a-number patterns are one value.

**Rounding.**  `nearest` is the only place where a result is rounded: it takes an exact ratio of
two natural numbers, times a power of two, to the closest number, ties to the even significand, and
past the largest finite number to an infinity.

**Interchange.**  `toBits` and `ofBits` are the standard 64-bit pattern: one sign bit, eleven
exponent bits, 52 fraction bits.

**Result.**  `magnitude_assemble`: a finite number put together from its parts has their magnitude.
-/

namespace ErrorFree

/-- The exponent of the number one, which is `2 ^ oneExponent` units. -/
def Binary64.oneExponent : Nat := 1074

/-- The form in which a finite number is stored: the significand fits in 53 bits, the number is not
above the largest finite one, and no power of two is left in the significand; zero has the exponent
of one. -/
def Binary64.Canonical (significand exponent : Nat) : Prop :=
  significand < twoTo 53 ∧
    (exponent ≤ 2045 ∨ significand * twoTo (exponent - 2045) < twoTo 53) ∧
    (significand % 2 = 1 ∨ significand = 0 ∧ exponent = oneExponent)

instance (significand exponent : Nat) : Decidable (Binary64.Canonical significand exponent) :=
  inferInstanceAs (Decidable (_ ∧ (_ ∨ _) ∧ (_ ∨ _ ∧ _)))

/-- A double precision number. -/
inductive Binary64 where
  /-- Not a number. -/
  | nan
  /-- An infinity with its sign. -/
  | infinity (negative : Bool)
  /-- The number `± significand · 2 ^ (exponent - 1074)`; zero has a sign too. -/
  | finite (negative : Bool) (significand exponent : Nat)
      (canonical : Binary64.Canonical significand exponent)
  deriving DecidableEq

namespace Binary64

section Constants

/-- Positive zero. -/
def zero : Binary64 := .finite false 0 oneExponent (by decide)

/-- The number one. -/
def one : Binary64 := .finite false 1 oneExponent (by decide)

/-- The number minus one. -/
def negOne : Binary64 := .finite true 1 oneExponent (by decide)

instance : Inhabited Binary64 := ⟨zero⟩

end Constants

section Views

/-- Neither an infinity nor not-a-number. -/
def isFinite : Binary64 → Bool
  | .finite .. => true
  | _ => false

/-- Not a number. -/
def isNaN : Binary64 → Bool
  | .nan => true
  | _ => false

/-- The sign bit; not-a-number counts as positive. -/
def isNegative : Binary64 → Bool
  | .nan => false
  | .infinity s => s
  | .finite s _ _ _ => s

/-- The distance from zero in units; zero for what is not finite. -/
def magnitude : Binary64 → Nat
  | .finite _ m e _ => m * Nat.pow 2 e
  | _ => 0

/-- The numerator of the magnitude of a finite number as a fraction in lowest terms. -/
def numerator : Binary64 → Nat
  | .finite _ m e _ => m * twoTo (e - oneExponent)
  | _ => 0

/-- The denominator of the magnitude as a fraction in lowest terms, a power of two. -/
def denominator : Binary64 → Nat
  | .finite _ _ e _ => twoTo (oneExponent - e)
  | _ => 1

/-- The signed value in units; zero for what is not finite. -/
def units (x : Binary64) : Int :=
  if x.isNegative then -(x.magnitude : Int) else x.magnitude

end Views

section Rounding

/-- A zero with the given sign. -/
def signedZero (negative : Bool) : Binary64 :=
  .finite negative 0 oneExponent (by decide)

/-- The number `± significand · 2 ^ exponent` units for a significand of at most `2 ^ 53`, an
infinity if that is too large. -/
def assemble (negative : Bool) (significand exponent : Nat) : Binary64 :=
  if significand = 0 then signedZero negative
  else
    let zeros := trailingZeros significand
    let odd := significand >>> zeros
    if h : Canonical odd (exponent + zeros) then .finite negative odd (exponent + zeros) h
    else .infinity negative

/-- The number closest to `n / d · 2 ^ k` units.  The exponent is chosen so that the significand
keeps 53 bits, or as many as are left at the lowest exponent. -/
def nearest (negative : Bool) (n d : Nat) (k : Int) : Binary64 :=
  if n = 0 then signedZero negative
  else
    let exponent := (leadingBit n d + k - 52).toNat
    let shift := exponent - k
    assemble negative (roundHalfEven (n * twoTo (-shift).toNat) (d * twoTo shift.toNat)) exponent

/-- The number closest to `n · 2 ^ k` units; of at most 53 bits it is exact. -/
def ofScaled (negative : Bool) (n k : Nat) : Binary64 :=
  if n < twoTo 53 then assemble negative n k else nearest negative n 1 k

/-- The number closest to a natural number. -/
def ofNat (n : Nat) : Binary64 := ofScaled false n oneExponent

/-- The number closest to an integer. -/
def ofInt (n : Int) : Binary64 := ofScaled (decide (n < 0)) n.natAbs oneExponent

end Rounding

section Interchange

/-- The 64-bit pattern with the given fields. -/
def packFields (negative : Bool) (exponent fraction : Nat) : UInt64 :=
  UInt64.ofNat ((if negative then twoTo 63 else 0) + exponent * twoTo 52 + fraction)

/-- The 64-bit pattern of a number. -/
def toBits : Binary64 → UInt64
  | .nan => packFields false 2047 (twoTo 51)
  | .infinity s => packFields s 2047 0
  | .finite s m e _ =>
      let lead := m.log2
      if m = 0 then packFields s 0 0
      else if e + lead < 52 then packFields s 0 (m * twoTo e)
      else packFields s (e + lead - 51) (m * twoTo (52 - lead) - twoTo 52)

/-- The number with a given 64-bit pattern. -/
def ofBits (bits : UInt64) : Binary64 :=
  let negative := decide (twoTo 63 ≤ bits.toNat)
  let exponent := bits.toNat / twoTo 52 % 2048
  let fraction := bits.toNat % twoTo 52
  if exponent = 2047 then
    if fraction = 0 then .infinity negative else .nan
  else if exponent = 0 then assemble negative fraction 0
  else assemble negative (twoTo 52 + fraction) (exponent - 1)

end Interchange

section Laws

/-- A number that is assembled and finite has the magnitude of its parts: nothing is rounded. -/
theorem magnitude_assemble (negative : Bool) (significand exponent : Nat)
    (h : (assemble negative significand exponent).isFinite) :
    (assemble negative significand exponent).magnitude = significand * Nat.pow 2 exponent := by
  unfold assemble at h ⊢
  by_cases hzero : significand = 0
  · rw [if_pos hzero, hzero, Nat.zero_mul]
    exact Nat.zero_mul _
  · rw [if_neg hzero] at h ⊢
    dsimp only at h ⊢
    split
    · have hodd := shiftRight_trailingZeros_mul significand
      have hpow : Nat.pow 2 (exponent + trailingZeros significand) =
          Nat.pow 2 (trailingZeros significand) * Nat.pow 2 exponent := by
        rw [Nat.add_comm]
        exact Nat.pow_add 2 _ _
      simp only [magnitude]
      rw [hpow, ← Nat.mul_assoc, hodd]
    · rename_i hcanonical
      rw [dif_neg hcanonical] at h
      cases h

end Laws

end Binary64

end ErrorFree
