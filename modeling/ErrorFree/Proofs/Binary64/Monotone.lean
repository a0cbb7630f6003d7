import ErrorFree.Proofs.Binary64.Nearest

/-!
# Rounding keeps the order

**Overflow.**  `RoundsTo` is correct rounding of a magnitude where the magnitudes from `overflow` on
are rounded to an infinity.  `Rounded` says the same of an exact value with its sign.

**Order.**  `extent` is the value of a number with the infinities put at the powers of two behind the
greatest number, so that it decides the order of all numbers (`less_iff_extent_lt`).

**Results.**
* `rounded_add`, `rounded_sub`, `rounded_mul`, `rounded_div`: the operations are the exact ones,
  rounded correctly.
* `Rounded.extent_le`: a greater value is not rounded to a smaller number.  So the order of two
  results that differ is the order of the exact values (`Rounded.lt_of_less`), and values with two
  numbers between them keep their order (`Rounded.less_of_between`).
-/

namespace ErrorFree

namespace Binary64

section Overflow

variable {s : Bool} {v w : ℚ} {x y : Binary64}

/-- The magnitude `v` with a sign is rounded to `x`, from `overflow` on to an infinity. -/
def RoundsTo (negative : Bool) (v : ℚ) (x : Binary64) : Prop :=
  Rounds negative v x ∨ overflow ≤ v ∧ x = .infinity negative

theorem abs_value_lt_overflow (hx : x.isFinite = true) : |x.value| < overflow := by
  have hpos : (0 : ℚ) < 2 ^ 2045 / 2 ^ oneExponent := by positivity
  calc |x.value| ≤ (2 ^ 53 - 1) * (2 ^ 2045 / 2 ^ oneExponent) := abs_value_le hx
    _ < (2 ^ 53 - 1 / 2) * (2 ^ 2045 / 2 ^ oneExponent) := by gcongr; norm_num
    _ = overflow := by rw [overflow_eq, mul_div_assoc]

/-- A number is rounded to itself. -/
theorem rounds_value (hx : x.isFinite = true) : Rounds x.isNegative (|x.value|) x := by
  have hself : distance (|x.value|) x = 0 := by rw [distance, sub_self, abs_zero]
  refine ⟨hx, rfl, ?_, ?_, abs_value_lt_overflow hx⟩
  · intro y _
    rw [hself]
    exact abs_nonneg _
  · intro y _ hne htie
    rw [hself, distance, abs_eq_zero, sub_eq_zero] at htie
    exact absurd htie.symm hne

theorem eq_infinity_of_assemble {m e : Nat} (h : (assemble s m e).isFinite = false) :
    assemble s m e = .infinity s := by
  unfold assemble at h ⊢
  split at h
  · cases h
  · rename_i hne
    dsimp only at h
    rw [if_neg hne]
    split at h
    · cases h
    · rename_i hcanonical
      exact dif_neg hcanonical

theorem roundsTo_nearest (s : Bool) (n : Nat) {d : Nat} (hd : d ≠ 0) (k : Int) :
    RoundsTo s (n / d * 2 ^ k / 2 ^ oneExponent) (nearest s n d k) := by
  cases hfinite : (nearest s n d k).isFinite with
  | true =>
      left
      exact (nearest_eq_iff_rounds hfinite n hd k).mp rfl
  | false =>
      right
      obtain ⟨w, q, e, hvalue, hclosest, hq, hw, hbits, hnearest⟩ :=
        nearest_eq_assemble_closest n hd k
      rw [hnearest s] at hfinite ⊢
      refine ⟨?_, eq_infinity_of_assemble hfinite⟩
      by_contra hbelow
      rw [hvalue, overflow_eq, not_le, div_lt_div_iff_of_pos_right (by positivity)] at hbelow
      have hinside := (hclosest.inRange_iff hq hw hbits 2045).mpr hbelow
      rw [← isFinite_assemble_iff s hq, hfinite] at hinside
      cases hinside

theorem roundsTo_ofScaled (s : Bool) (n k : Nat) :
    RoundsTo s (n * 2 ^ k / 2 ^ oneExponent) (ofScaled s n k) := by
  unfold ofScaled
  split
  · rename_i hsmall
    cases hfinite : (assemble s n k).isFinite with
    | true =>
        left
        have hself := rounds_value hfinite
        rw [isNegative_assemble, abs_value, magnitude_assemble s n k hfinite, ← twoTo_eq,
          Nat.cast_mul, cast_twoTo] at hself
        exact hself
    | false =>
        right
        refine ⟨?_, eq_infinity_of_assemble hfinite⟩
        have hlarge : 2 ^ 53 * 2 ^ 2045 ≤ n * 2 ^ k := by
          rw [← Nat.not_lt, ← isFinite_assemble_iff s (twoTo_eq_pow 53 ▸ hsmall.le), hfinite]
          exact Bool.false_ne_true
        have hcast : (2 : ℚ) ^ 53 * 2 ^ 2045 ≤ n * 2 ^ k := by exact_mod_cast hlarge
        rw [overflow_eq, div_le_div_iff_of_pos_right (by positivity)]
        refine le_trans ?_ hcast
        gcongr
        norm_num
  · have h := roundsTo_nearest s n one_ne_zero k
    rwa [Nat.cast_one, div_one, zpow_natCast] at h

end Overflow

section Order

variable {s : Bool} {v w : ℚ} {x y : Binary64}

/-- The value, with the infinities at the powers of two behind the greatest number. -/
def extent : Binary64 → ℚ
  | .infinity s => if s then -2 ^ 1024 else 2 ^ 1024
  | x => x.value

theorem extent_of_isFinite (hx : x.isFinite = true) : x.extent = x.value := by
  obtain ⟨s, m, e, h, rfl⟩ := exists_parts hx
  rfl

theorem abs_value_lt (hx : x.isFinite = true) : |x.value| < 2 ^ 1024 := by
  have hpos : (0 : ℚ) < 2 ^ 970 := by positivity
  calc |x.value| < overflow := abs_value_lt_overflow hx
    _ < 2 ^ 1024 := sub_lt_self _ hpos

/-- The extent decides the order of all numbers. -/
theorem less_iff_extent_lt (hx : x.isNaN = false) (hy : y.isNaN = false) :
    x.less y = true ↔ x.extent < y.extent := by
  cases x with
  | nan => cases hx
  | infinity s =>
      cases y with
      | nan => cases hy
      | infinity t =>
          cases s <;> cases t <;> simp [less, extent]
      | finite t n f h =>
          have hbound := abs_lt.mp (abs_value_lt (x := finite t n f h) rfl)
          cases s with
          | false => simpa [less, extent] using hbound.2.le
          | true => simpa [less, extent] using hbound.1
  | finite s m e h =>
      cases y with
      | nan => cases hy
      | infinity t =>
          have hbound := abs_lt.mp (abs_value_lt (x := finite s m e h) rfl)
          cases t with
          | false => simpa [less, extent] using hbound.2
          | true => simpa [less, extent] using hbound.1.le
      | finite t n f h' => exact less_iff_value_lt rfl rfl

theorem two_mul_le_of_closer {c d : ℚ} (hlt : c < d) (h : |v - c| ≤ |v - d|) : 2 * v ≤ c + d := by
  rcases abs_cases (v - c) with ⟨hc, hc'⟩ | ⟨hc, hc'⟩ <;>
    rcases abs_cases (v - d) with ⟨hd, hd'⟩ | ⟨hd, hd'⟩ <;> linarith

theorem le_two_mul_of_closer {c d : ℚ} (hlt : c < d) (h : |v - d| ≤ |v - c|) : c + d ≤ 2 * v := by
  rcases abs_cases (v - c) with ⟨hc, hc'⟩ | ⟨hc, hc'⟩ <;>
    rcases abs_cases (v - d) with ⟨hd, hd'⟩ | ⟨hd, hd'⟩ <;> linarith

/-- A greater magnitude is not rounded to a smaller number: the first would lie above and the second
below the middle of the results. -/
theorem Rounds.abs_value_le (hx : Rounds s v x) (hy : Rounds s w y) (hle : v ≤ w) :
    |x.value| ≤ |y.value| := by
  by_contra hlt
  rw [not_le] at hlt
  have habove := le_two_mul_of_closer hlt (hx.closest y hy.isFinite)
  have hbelow := two_mul_le_of_closer hlt (hy.closest x hx.isFinite)
  obtain rfl : v = w := by linarith
  rw [hx.unique hy] at hlt
  exact lt_irrefl _ hlt

theorem RoundsTo.isNegative (h : RoundsTo s v x) : x.isNegative = s := by
  rcases h with h | ⟨-, rfl⟩
  · exact h.isNegative
  · rfl

theorem isNaN_of_isFinite (hx : x.isFinite = true) : x.isNaN = false := by
  obtain ⟨s, m, e, h, rfl⟩ := exists_parts hx
  rfl

theorem RoundsTo.isNaN (h : RoundsTo s v x) : x.isNaN = false := by
  rcases h with h | ⟨-, rfl⟩
  · exact isNaN_of_isFinite h.isFinite
  · rfl

theorem RoundsTo.abs_extent_le (hx : RoundsTo s v x) (hy : RoundsTo s w y) (hle : v ≤ w) :
    |x.extent| ≤ |y.extent| := by
  have htop : |(infinity s).extent| = 2 ^ 1024 := by
    cases s <;> simp [extent]
  rcases hy with hy | ⟨-, rfl⟩
  · rcases hx with hx | ⟨hover, -⟩
    · rw [extent_of_isFinite hx.isFinite, extent_of_isFinite hy.isFinite]
      exact hx.abs_value_le hy hle
    · exact absurd hy.below (not_lt.mpr (hover.trans hle))
  · rcases hx with hx | ⟨-, rfl⟩
    · rw [extent_of_isFinite hx.isFinite, htop]
      exact (abs_value_lt hx.isFinite).le
    · exact le_rfl

/-- Zero is rounded to zero. -/
theorem RoundsTo.extent_eq_zero (h : RoundsTo s 0 x) : x.extent = 0 := by
  have hzero : (signedZero s).value = 0 := by rw [value, units_signedZero, Int.cast_zero, zero_div]
  have hself := rounds_value (x := signedZero s) rfl
  rw [hzero, abs_zero] at hself
  have hle := h.abs_extent_le (Or.inl hself) le_rfl
  rw [extent_of_isFinite (x := signedZero s) rfl, hzero, abs_zero] at hle
  exact abs_nonpos_iff.mp hle

theorem extent_eq (hx : x.isNaN = false) :
    x.extent = if x.isNegative then -|x.extent| else |x.extent| := by
  cases x with
  | nan => cases hx
  | infinity s => cases s <;> simp [extent, isNegative]
  | finite s m e h =>
      have hmagnitude := abs_value (finite s m e h)
      show (finite s m e h).value =
        if s then -|(finite s m e h).value| else |(finite s m e h).value|
      rw [hmagnitude, value, units]
      cases s <;> simp [isNegative, neg_div]

end Order

section Rounded

variable {x y : ℚ} {r q a b : Binary64}

/-- The exact value `x` is rounded to the nearest number `r`, ties to even. -/
def Rounded (x : ℚ) (r : Binary64) : Prop :=
  ∃ s, x = (if s then -|x| else |x|) ∧ RoundsTo s (|x|) r

theorem Rounded.isNaN (h : Rounded x r) : r.isNaN = false := by
  obtain ⟨s, -, hr⟩ := h
  exact hr.isNaN

/-- **A greater value is not rounded to a smaller number.** -/
theorem Rounded.extent_le (hr : Rounded x r) (hq : Rounded y q) (hle : x ≤ y) :
    r.extent ≤ q.extent := by
  obtain ⟨s, hx, hr⟩ := hr
  obtain ⟨t, hy, hq⟩ := hq
  have hr' := extent_eq hr.isNaN
  have hq' := extent_eq hq.isNaN
  rw [hr.isNegative] at hr'
  rw [hq.isNegative] at hq'
  cases s with
  | false =>
      cases t with
      | false =>
          rw [hr', hq']
          exact hr.abs_extent_le hq (hx.symm.trans_le (hle.trans_eq hy))
      | true =>
          -- Such values are zero both, with opposite signs.
          have hsum : |x| ≤ -|y| := hx.symm.trans_le (hle.trans_eq hy)
          have hx₀ : |x| = 0 := by linarith [abs_nonneg x, abs_nonneg y]
          have hy₀ : |y| = 0 := by linarith [abs_nonneg x, abs_nonneg y]
          rw [hx₀] at hr
          rw [hy₀] at hq
          rw [hr.extent_eq_zero, hq.extent_eq_zero]
  | true =>
      cases t with
      | false =>
          rw [hr', hq']
          exact (neg_nonpos.mpr (abs_nonneg _)).trans (abs_nonneg _)
      | true =>
          have hsum : -|x| ≤ -|y| := hx.symm.trans_le (hle.trans_eq hy)
          rw [hr', hq']
          exact neg_le_neg (hq.abs_extent_le hr (neg_le_neg_iff.mp hsum))

/-- Where two results differ, their order is that of the exact values. -/
theorem Rounded.lt_of_less (hr : Rounded x r) (hq : Rounded y q) (h : r.less q = true) : x < y := by
  rw [less_iff_extent_lt hr.isNaN hq.isNaN] at h
  by_contra hle
  exact absurd (hq.extent_le hr (not_lt.mp hle)) (not_le.mpr h)

theorem rounded_value (ha : a.isFinite = true) : Rounded a.value a := by
  refine ⟨a.isNegative, ?_, Or.inl (rounds_value ha)⟩
  have hextent := extent_eq (isNaN_of_isFinite ha)
  rwa [extent_of_isFinite ha] at hextent

/-- Values with two numbers between them keep their order. -/
theorem Rounded.less_of_between (hr : Rounded x r) (hq : Rounded y q) (ha : a.isFinite = true)
    (hb : b.isFinite = true) (hxa : x ≤ a.value) (hab : a.value < b.value) (hby : b.value ≤ y) :
    r.less q = true := by
  have hra := hr.extent_le (rounded_value ha) hxa
  have hbq := (rounded_value hb).extent_le hq hby
  rw [extent_of_isFinite ha] at hra
  rw [extent_of_isFinite hb] at hbq
  rw [less_iff_extent_lt hr.isNaN hq.isNaN]
  linarith

/-- A value that is not above every number is rounded to a number. -/
theorem Rounded.isFinite_of_le (hr : Rounded x r) (ha : a.isFinite = true) (hle : |x| ≤ |a.value|) :
    r.isFinite = true := by
  obtain ⟨s, -, hr | ⟨hover, -⟩⟩ := hr
  · exact hr.isFinite
  · exact absurd (hover.trans hle) (not_le.mpr (abs_value_lt_overflow ha))

/-- No number is closer to the exact value than the result. -/
theorem Rounded.closest (hr : Rounded x r) (hfinite : r.isFinite = true) (ha : a.isFinite = true) :
    |x - r.value| ≤ |x - a.value| := by
  obtain ⟨s, hx, hr | ⟨-, rfl⟩⟩ := hr
  · have hvalue := extent_eq (isNaN_of_isFinite hfinite)
    rw [hr.isNegative, extent_of_isFinite hfinite] at hvalue
    have hsame : |x - r.value| = distance (|x|) r := by
      rw [distance]
      cases s with
      | false =>
          simp only [Bool.false_eq_true, if_false] at hx hvalue
          rw [← hx, ← hvalue]
      | true =>
          simp only [if_true] at hx hvalue
          rw [abs_sub_comm]
          congr 1
          linarith
    calc |x - r.value| = distance (|x|) r := hsame
      _ ≤ distance (|x|) a := hr.closest a ha
      _ ≤ |x - a.value| := abs_abs_sub_abs_le x a.value
  · cases hfinite

/-- A number is its own rounding. -/
theorem Rounded.exact (hr : Rounded x r) (hx : IsNumber x) : r.isFinite = true ∧ r.value = x := by
  obtain ⟨a, ha, rfl⟩ := hx
  have hfinite := hr.isFinite_of_le ha le_rfl
  have hclosest := hr.closest hfinite ha
  rw [sub_self, abs_zero, abs_nonpos_iff, sub_eq_zero] at hclosest
  exact ⟨hfinite, hclosest.symm⟩

end Rounded

section Operations

variable {a b : Binary64}

theorem rounded_signed {r : Binary64} {s : Bool} {n : Nat} {x : ℚ} (hx : 0 ≤ x)
    (h : RoundsTo s (n * x) r) : Rounded ((signed s n : Int) * x) r := by
  have habs : |((signed s n : Int) : ℚ) * x| = n * x := by
    rw [abs_mul, abs_of_nonneg hx, abs_cast_signed]
  refine ⟨s, ?_, by rwa [habs]⟩
  rw [habs, cast_signed]
  cases s <;> simp

theorem rounded_ofScaled (s : Bool) (n k : Nat) :
    Rounded ((signed s n : Int) * (2 ^ k / 2 ^ oneExponent)) (ofScaled s n k) := by
  apply rounded_signed (by positivity)
  rw [← mul_div_assoc]
  exact roundsTo_ofScaled s n k

theorem rounded_add (ha : a.isFinite = true) (hb : b.isFinite = true) :
    Rounded (a.value + b.value) (a + b) := by
  rcases add_cases ha hb with ⟨hzero, heq⟩ | ⟨r, j, k, hsum, heq⟩
  · rw [hzero, heq, ← value_zero]
    exact rounded_value rfl
  · rw [hsum, heq]
    exact rounded_ofScaled r j k

theorem rounded_sub (ha : a.isFinite = true) (hb : b.isFinite = true) :
    Rounded (a.value - b.value) (a - b) := by
  have h := rounded_add ha ((isFinite_neg b).trans hb)
  rwa [value_neg, ← sub_eq_add_neg] at h

theorem rounded_nearest (s : Bool) (n : Nat) {d : Nat} (hd : d ≠ 0) (k : Int) :
    Rounded ((signed s n : Int) * (2 ^ k / d / 2 ^ oneExponent)) (nearest s n d k) := by
  apply rounded_signed (by positivity)
  have hscaled : (n : ℚ) * (2 ^ k / d / 2 ^ oneExponent) = n / d * 2 ^ k / 2 ^ oneExponent := by ring
  rw [hscaled]
  exact roundsTo_nearest s n hd k

theorem rounded_mul (ha : a.isFinite = true) (hb : b.isFinite = true) :
    Rounded (a.value * b.value) (a * b) := by
  obtain ⟨r, n, ⟨k, hproduct, heq⟩ | ⟨d, hd, hproduct, heq⟩⟩ := mul_cases ha hb
  · rw [hproduct, heq]
    exact rounded_ofScaled r n k
  · rw [hproduct, heq]
    exact rounded_nearest r n hd 0

theorem rounded_div (ha : a.isFinite = true) (hb : b.isFinite = true) (hne : b.value ≠ 0) :
    Rounded (a.value / b.value) (a.div b) := by
  obtain ⟨r, n, d, k, hd, hquotient, heq⟩ := div_eq_nearest ha hb hne
  rw [hquotient, heq]
  exact rounded_nearest r n hd k

end Operations

end Binary64

end ErrorFree
