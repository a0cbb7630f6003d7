import ErrorFree.Number.Coercion
import ErrorFree.Proofs.Binary64.Value
import Mathlib.Algebra.Order.Floor.Semifield

/-!
# The character of a number

`toChar_of_finite`: the code of the character is the whole part of the exact magnitude, if there is
such a character.  The code is cut off at the greatest number of 32 bits first, which is above all
codes, so that the cut never makes a character out of a number that is too large.
-/

namespace ErrorFree

namespace Binary64

theorem abs_value_eq_div {x : Binary64} (hx : x.isFinite = true) :
    |x.value| = (x.numerator : ℚ) / x.denominator := by
  obtain ⟨s, m, e, h, rfl⟩ := exists_parts hx
  have habs : |((signed s m : Int) : ℚ)| = m := by
    cases s <;> simp [cast_signed]
  rw [value_finite, numerator, denominator, Nat.cast_mul, cast_twoTo, cast_twoTo, abs_div, abs_mul,
    habs, abs_of_pos (by positivity : (0 : ℚ) < 2 ^ e),
    abs_of_pos (by positivity : (0 : ℚ) < 2 ^ oneExponent),
    div_eq_div_iff (by positivity) (by positivity), mul_assoc, mul_assoc, ← pow_add, ← pow_add]
  have hexponents : e + (oneExponent - e) = e - oneExponent + oneExponent := by omega
  rw [hexponents]

theorem wholePart_eq_floor {x : Binary64} (hx : x.isFinite = true) :
    x.wholePart = ⌊|x.value|⌋₊ := by
  rw [abs_value_eq_div hx, Nat.floor_div_eq_div, wholePart]

theorem toNatClamped_abs {x : Binary64} (hx : x.isFinite = true) (limit : Nat) :
    x.abs.toNatClamped limit = min ⌊|x.value|⌋₊ limit := by
  rw [← wholePart_eq_floor hx]
  obtain ⟨s, m, e, h, rfl⟩ := exists_parts hx
  rfl

end Binary64

namespace Number

variable {x : Binary64}

theorem toChar_of_finite (hx : x.isFinite = true) :
    toChar x =
      if ⌊|x.value|⌋₊.isValidChar then Char.ofNat ⌊|x.value|⌋₊ else '\uFFFD' := by
  have hcode : (finiteOrZero x).abs.toNatClamped (Nat.pow 2 32 - 1) =
      min ⌊|x.value|⌋₊ (Nat.pow 2 32 - 1) := by
    rw [finiteOrZero, if_pos hx, Binary64.toNatClamped_abs hx]
  simp only [toChar, hcode]
  obtain ⟨n, hn⟩ : ∃ n, n = ⌊|x.value|⌋₊ := ⟨_, rfl⟩
  rw [← hn]
  have hlimit : Nat.pow 2 32 - 1 = 4294967295 := rfl
  rw [hlimit]
  rcases Nat.le_total n 4294967295 with hle | hge
  · rw [Nat.min_eq_left hle]
  · have hlarge : ¬ n.isValidChar := by
      simp only [Nat.isValidChar]
      omega
    rw [Nat.min_eq_right hge, if_neg hlarge, if_neg (by decide)]

theorem toChar_of_not_finite (hx : x.isFinite = false) : toChar x = '\x00' := by
  have hzero : finiteOrZero x = Binary64.zero := by
    rw [finiteOrZero, hx]
    rfl
  simp only [toChar, hzero]
  decide

/-- The code of the character of a finite number, where that is the code of a character. -/
theorem toNat_toChar (hx : x.isFinite = true) (hvalid : ⌊|x.value|⌋₊.isValidChar) :
    (toChar x).toNat = ⌊|x.value|⌋₊ := by
  rw [toChar_of_finite hx, if_pos hvalid, Char.ofNat, dif_pos hvalid]
  rfl

/-- A surrogate, or what is above the last code, is shown as the replacement character. -/
theorem toChar_of_invalid (hx : x.isFinite = true)
    (hinvalid : 0xD800 ≤ ⌊|x.value|⌋₊ ∧ ⌊|x.value|⌋₊ ≤ 0xDFFF ∨ 0x10FFFF < ⌊|x.value|⌋₊) :
    toChar x = '\uFFFD' := by
  rw [toChar_of_finite hx, if_neg]
  simp only [Nat.isValidChar]
  omega

end Number

end ErrorFree
