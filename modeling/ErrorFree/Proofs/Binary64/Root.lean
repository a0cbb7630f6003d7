import ErrorFree.Proofs.Binary64.Monotone
import Mathlib.Analysis.Real.Sqrt

/-!
# Square roots

**Closest.**  `Closest z r`: no number is closer to the real number `z` than `r`.

**Argument.**  The root of an extended significand lies between two whole numbers of at least 55
bits, strictly if the significand is no square.  Numbers of that size are even multiples of the
grain, so that the middle of two of them is a whole multiple (`exists_even`).  No such multiple lies
strictly between the two whole numbers; so the root and the point half way between them are on the
same side of every such middle, and what is closest to the one is closest to the other
(`closest_of_between`).

**Result.**  `closest_sqrt`: a root is the number closest to the exact root.
-/

namespace ErrorFree

namespace Binary64

section Closest

/-- No number is closer to `z`. -/
def Closest (z : ℝ) (r : Binary64) : Prop :=
  r.isFinite = true ∧ ∀ y : Binary64, y.isFinite = true → |z - r.value| ≤ |z - y.value|

/-- The value of `2 ^ k` units. -/
def grain (k : Nat) : ℚ := 2 ^ k / 2 ^ oneExponent

variable {x y r : Binary64} {k n : Nat}

theorem grain_pos (k : Nat) : 0 < grain k := by
  rw [grain]
  positivity

theorem isNumber_pow_mul_grain (h : n + k ≤ 2045) : IsNumber (2 ^ n * grain k) := by
  have hone := isNumber_of_scaled (c := 1) (by decide) h
  rwa [Int.cast_one, one_mul, pow_add, mul_div_assoc] at hone

theorem Rounded.closest_cast {v : ℚ} (h : Rounded v r) (hfinite : r.isFinite = true) :
    Closest v r := by
  refine ⟨hfinite, fun y hy => ?_⟩
  exact_mod_cast h.closest hfinite hy

/-- A number of `2 ^ 54` grains or more has an even number of them. -/
theorem exists_even (hy : y.isFinite = true) (h : 2 ^ 54 * grain k ≤ y.value) :
    ∃ c : Int, y.value = 2 * c * grain k := by
  obtain ⟨c, e, hc, -, hvalue⟩ := (isNumber_value hy).exists_scaled
  have hlarge : k + 1 ≤ e := by
    by_contra hsmall
    have hbits : (c : ℚ) ≤ 2 ^ 53 := by
      have hint : c ≤ 2 ^ 53 := by
        rw [twoTo_eq_pow] at hc
        omega
      exact_mod_cast hint
    have hle : y.value ≤ 2 ^ 53 * grain k := by
      rw [hvalue, mul_div_assoc, grain]
      gcongr
      · exact one_le_two
      · omega
    linarith [grain_pos k]
  refine ⟨c * 2 ^ (e - (k + 1)), ?_⟩
  have hpow : (2 : ℚ) ^ e = 2 ^ (e - (k + 1)) * (2 * 2 ^ k) := by
    rw [← pow_succ', ← pow_add, Nat.sub_add_cancel hlarge]
  rw [hvalue, hpow, grain]
  push_cast
  ring

/-- An even multiple that is not below an odd one is not below the next even one either. -/
theorem even_of_odd_le {c : Int} {g : ℚ} (hg : 0 < g) (h : (2 * n + 1) * g ≤ 2 * c * g) :
    2 * (n + 1) * g ≤ 2 * c * g := by
  have hwhole : 2 * (n : Int) + 1 ≤ 2 * c := by exact_mod_cast le_of_mul_le_mul_right h hg
  have hnext : 2 * ((n : Int) + 1) ≤ 2 * c := by omega
  exact mul_le_mul_of_nonneg_right (by exact_mod_cast hnext) hg.le

/-- An even multiple that is not above an odd one is not above the even one before it either. -/
theorem even_of_le_odd {c : Int} {g : ℚ} (hg : 0 < g) (h : 2 * c * g ≤ (2 * n + 1) * g) :
    2 * c * g ≤ 2 * n * g := by
  have hwhole : 2 * c ≤ 2 * (n : Int) + 1 := by exact_mod_cast le_of_mul_le_mul_right h hg
  have hnext : 2 * c ≤ 2 * (n : Int) := by omega
  exact mul_le_mul_of_nonneg_right (by exact_mod_cast hnext) hg.le

theorem exists_even_add (hx : x.isFinite = true) (hy : y.isFinite = true)
    (hx' : 2 ^ 54 * grain k ≤ x.value) (hy' : 2 ^ 54 * grain k ≤ y.value) :
    ∃ c : Int, x.value + y.value = 2 * c * grain k := by
  obtain ⟨c, hc⟩ := exists_even hx hx'
  obtain ⟨d, hd⟩ := exists_even hy hy'
  refine ⟨c + d, ?_⟩
  rw [hc, hd]
  push_cast
  ring

/-- The middle of a number and a greater one that is no closer to the point half way between `n` and
`n + 1` grains is not below `n + 1` grains: twice that point is an odd multiple of the grain, the sum
of the numbers an even one. -/
theorem le_add_of_closer (hx : x.isFinite = true) (hy : y.isFinite = true) (hlt : x.value < y.value)
    (hlow : 2 ^ 54 * grain k ≤ x.value)
    (hcloser : |(2 * n + 1) / 2 * grain k - x.value| ≤ |(2 * n + 1) / 2 * grain k - y.value|) :
    2 * (n + 1) * grain k ≤ x.value + y.value := by
  obtain ⟨c, hc⟩ := exists_even_add hx hy hlow (hlow.trans hlt.le)
  have hmiddle := two_mul_le_of_closer hlt hcloser
  rw [hc] at hmiddle ⊢
  exact even_of_odd_le (grain_pos k) (by linarith)

theorem add_le_of_closer (hx : x.isFinite = true) (hy : y.isFinite = true) (hlt : x.value < y.value)
    (hlow : 2 ^ 54 * grain k ≤ x.value)
    (hcloser : |(2 * n + 1) / 2 * grain k - y.value| ≤ |(2 * n + 1) / 2 * grain k - x.value|) :
    x.value + y.value ≤ 2 * n * grain k := by
  obtain ⟨c, hc⟩ := exists_even_add hx hy hlow (hlow.trans hlt.le)
  have hmiddle := le_two_mul_of_closer hlt hcloser
  rw [hc] at hmiddle ⊢
  exact even_of_le_odd (grain_pos k) (by linarith)

/-- The middle of any number and of the one closest to the point half way between `n` and `n + 1`
grains does not lie strictly between these two. -/
theorem Rounded.middle_cases (h : Rounded ((2 * n + 1) / 2 * grain k) r) (hr : r.isFinite = true)
    (hn : 2 ^ 54 ≤ n) (hk : 54 + k ≤ 2045) (hy : y.isFinite = true) :
    (r.value < y.value → 2 * (n + 1) * grain k ≤ r.value + y.value) ∧
      (y.value < r.value → y.value + r.value ≤ 2 * n * grain k) := by
  have hpos := grain_pos k
  have hn' : (2 : ℚ) ^ 54 ≤ n := by exact_mod_cast hn
  obtain ⟨p, hp, hpvalue⟩ := isNumber_pow_mul_grain hk
  have hpr : p.value ≤ r.value := by
    have hle := (rounded_value hp).extent_le h (by rw [hpvalue]; gcongr; linarith)
    rwa [extent_of_isFinite hp, extent_of_isFinite hr] at hle
  refine ⟨fun hlt => le_add_of_closer hr hy hlt (hpvalue ▸ hpr) (h.closest hr hy), fun hlt => ?_⟩
  rcases le_total p.value y.value with hpy | hyp
  · exact add_le_of_closer hy hr hlt (hpvalue ▸ hpy) (h.closest hr hy)
  -- Below `2 ^ 54` grains the numbers are finer, but then the middle is farther away.
  · rcases eq_or_lt_of_le hpr with heq | hpr
    · have hpn : p.value ≤ n * grain k := by
        rw [hpvalue]
        gcongr
      linarith
    · linarith [add_le_of_closer hp hr hpr hpvalue.ge (h.closest hr hp)]

/-- Between `n` and `n + 1` grains the closest number is that of the point half way. -/
theorem closest_of_between {z : ℝ} (h : Rounded ((2 * n + 1) / 2 * grain k) r)
    (hr : r.isFinite = true) (hn : 2 ^ 54 ≤ n) (hk : 54 + k ≤ 2045) (hlow : n * grain k < z)
    (hhigh : z < (n + 1) * grain k) : Closest z r := by
  refine ⟨hr, fun y hy => ?_⟩
  obtain ⟨habove, hbelow⟩ := h.middle_cases hr hn hk hy
  rcases lt_trichotomy r.value y.value with hlt | heq | hlt
  · have hmiddle : 2 * ((n : ℝ) + 1) * grain k ≤ r.value + y.value := by exact_mod_cast habove hlt
    have hlt' : (r.value : ℝ) < y.value := by exact_mod_cast hlt
    rw [abs_sub_comm z y.value]
    exact (abs_le.mpr ⟨by linarith, by linarith⟩).trans (le_abs_self _)
  · rw [heq]
  · have hmiddle : (y.value : ℝ) + r.value ≤ 2 * n * grain k := by exact_mod_cast hbelow hlt
    have hlt' : (y.value : ℝ) < r.value := by exact_mod_cast hlt
    exact (abs_le.mpr ⟨by linarith, by linarith⟩).trans (le_abs_self _)

end Closest

section Roots

variable {m e : Nat}

/-- The value of a number as a square of grains, of an extended significand. -/
theorem value_eq_square (h : Canonical m e) :
    (finite false m e h).value =
      (m * twoTo (108 + e % 2) : Nat) * grain ((e - e % 2 + oneExponent - 108) / 2) ^ 2 := by
  have hone : oneExponent = 1074 := rfl
  have hpow : (2 : ℚ) ^ (108 + e % 2) * (2 ^ ((e - e % 2 + oneExponent - 108) / 2)) ^ 2 =
      2 ^ e * 2 ^ oneExponent := by
    rw [← pow_mul, ← pow_add, ← pow_add]
    congr 1
    omega
  rw [value_finite, cast_signed, if_neg Bool.false_ne_true, Nat.cast_mul, cast_twoTo, grain,
    div_pow, mul_div_assoc', mul_assoc, hpow]
  field_simp

theorem exponent_le (h : Canonical m e) (hm : m ≠ 0) : e ≤ 2097 := by
  have hle : twoTo e ≤ m * twoTo e := Nat.le_mul_of_pos_left _ (Nat.pos_of_ne_zero hm)
  by_contra hlarge
  have hge : twoTo (53 + 2045) ≤ twoTo e := twoTo_le_twoTo (by omega)
  exact absurd (hle.trans_lt (magnitude_lt h)) (not_lt.mpr hge)

/-- The whole root of an extended significand has 55 to 81 bits. -/
theorem sqrt_bounds (h : Canonical m e) (hm : m ≠ 0) :
    2 ^ 54 ≤ (m * twoTo (108 + e % 2)).sqrt ∧ (m * twoTo (108 + e % 2)).sqrt < 2 ^ 81 := by
  have hsmall := h.1
  rw [twoTo_eq_pow] at hsmall ⊢
  have hparity : 108 + e % 2 ≤ 109 := by omega
  constructor
  · rw [Nat.le_sqrt']
    calc (2 ^ 54) ^ 2 = 1 * 2 ^ 108 := by norm_num
      _ ≤ m * 2 ^ (108 + e % 2) := Nat.mul_le_mul (Nat.pos_of_ne_zero hm)
          (Nat.pow_le_pow_right Nat.two_pos (Nat.le_add_right ..))
  · rw [Nat.sqrt_lt']
    calc m * 2 ^ (108 + e % 2) < 2 ^ 53 * 2 ^ 109 := Nat.mul_lt_mul_of_lt_of_le hsmall
          (Nat.pow_le_pow_right Nat.two_pos hparity) (by positivity)
      _ = (2 ^ 81) ^ 2 := by norm_num

/-- A whole number of grains that is not out of range is rounded to a number. -/
theorem isFinite_ofScaled_of_lt {k n : Nat} (hn : n < 2 ^ 82) (hk : 82 + k ≤ 2045) :
    (ofScaled false n k).isFinite = true := by
  obtain ⟨p, hp, hpvalue⟩ := isNumber_pow_mul_grain hk
  refine (rounded_ofScaled false n k).isFinite_of_le hp ?_
  have hcast : (n : ℚ) ≤ 2 ^ 82 := by exact_mod_cast hn.le
  rw [hpvalue, cast_signed, if_neg Bool.false_ne_true, ← grain, abs_of_nonneg, abs_of_nonneg]
  · exact mul_le_mul_of_nonneg_right hcast (grain_pos k).le
  · exact mul_nonneg (by positivity) (grain_pos k).le
  · exact mul_nonneg (by positivity) (grain_pos k).le

/-- The root of a square of grains, by the whole root of their number. -/
theorem closest_root {square k : Nat} (hlow : 2 ^ 54 ≤ square.sqrt) (hhigh : square.sqrt < 2 ^ 81)
    (hk : 82 + (k + 1) ≤ 2045) :
    Closest (√square * grain (k + 1))
      (if square.sqrt * square.sqrt = square then ofScaled false square.sqrt (k + 1)
        else ofScaled false (2 * square.sqrt + 1) k) := by
  have hpos : (0 : ℝ) < grain (k + 1) := by exact_mod_cast grain_pos (k + 1)
  split
  · rename_i hsquare
    have hroot : √(square : ℝ) = square.sqrt := by
      rw [← hsquare, Nat.cast_mul, Real.sqrt_mul_self (Nat.cast_nonneg _), hsquare]
    have hrounded := rounded_ofScaled false square.sqrt (k + 1)
    rw [cast_signed, if_neg Bool.false_ne_true, ← grain] at hrounded
    rw [hroot]
    exact_mod_cast hrounded.closest_cast (isFinite_ofScaled_of_lt (by omega) hk)
  · rename_i hsquare
    have hbelow : (square.sqrt : ℝ) < √square := by
      rw [Real.lt_sqrt (Nat.cast_nonneg _)]
      have hlt : square.sqrt ^ 2 < square :=
        lt_of_le_of_ne (Nat.sqrt_le' square) (by rwa [sq])
      exact_mod_cast hlt
    have habove : √(square : ℝ) < square.sqrt + 1 := by
      rw [Real.sqrt_lt' (by positivity)]
      exact_mod_cast Nat.lt_succ_sqrt' square
    have hrounded := rounded_ofScaled false (2 * square.sqrt + 1) k
    have hmiddle : ((2 * square.sqrt + 1 : Nat) : ℚ) * grain k =
        (2 * square.sqrt + 1) / 2 * grain (k + 1) := by
      rw [grain, grain, pow_succ']
      push_cast
      ring
    rw [cast_signed, if_neg Bool.false_ne_true, ← grain, hmiddle] at hrounded
    have hfinite := isFinite_ofScaled_of_lt (n := 2 * square.sqrt + 1) (k := k) (by omega) (by omega)
    exact closest_of_between hrounded hfinite hlow (by omega)
      (mul_lt_mul_of_pos_right hbelow hpos) (mul_lt_mul_of_pos_right habove hpos)

/-- **A root is the number closest to the exact root.** -/
theorem closest_sqrt {x : Binary64} (hx : x.isFinite = true) (hnonneg : 0 ≤ x.value) :
    Closest (√(x.value : ℝ)) x.sqrt := by
  obtain ⟨s, m, e, h, rfl⟩ := exists_parts hx
  by_cases hm : m = 0
  · have hzero := (value_eq_zero_iff h s).mpr hm
    rw [hzero, Rat.cast_zero, Real.sqrt_zero, ← Rat.cast_zero, ← hzero, sqrt, if_pos hm]
    exact (rounded_value rfl).closest_cast rfl
  · obtain rfl : s = false := by
      cases s with
      | false => rfl
      | true =>
          have hpos : (0 : ℚ) < m := by exact_mod_cast Nat.pos_of_ne_zero hm
          rw [value_finite, cast_signed, if_pos rfl, neg_mul, neg_div, neg_nonneg] at hnonneg
          exact absurd hnonneg (not_le.mpr (by positivity))
    have hone : oneExponent = 1074 := rfl
    have hexponent := exponent_le h hm
    obtain ⟨hlow, hhigh⟩ := sqrt_bounds h hm
    obtain ⟨k, hk⟩ : ∃ k, (e - e % 2 + oneExponent - 108) / 2 = k + 1 :=
      Nat.exists_eq_succ_of_ne_zero (by omega)
    have hroot := closest_root (k := k) hlow hhigh (by omega)
    rw [value_eq_square, hk, Rat.cast_mul, Rat.cast_natCast, Rat.cast_pow,
      Real.sqrt_mul (Nat.cast_nonneg _), Real.sqrt_sq (by exact_mod_cast (grain_pos (k + 1)).le)]
    simpa only [sqrt, if_neg hm, Bool.false_eq_true, if_false, hk, Nat.add_sub_cancel] using hroot

end Roots

end Binary64

end ErrorFree
