import ErrorFree.Proofs.Binary64.Monotone

/-!
# Quotients of whole numbers

**Grid.**  From a whole number `k` below `2 ^ 52` to the next one the numbers lie on a grid of
`2 ^ (-p)`, which is fine enough that `k` times `2 ^ p` has 53 bits (`exists_grid`).

**Result.**  `floor_quotient`: rounding the quotient of two whole numbers of 53 bits does not take it
over a whole number.  A quotient `m / d` that is not whole lies at least `1 / d` from every whole
number, and half a step of the grid is less than that.
-/

namespace ErrorFree

namespace Binary64

variable {r : Binary64} {m d k : Nat}

section Grid

/-- Fractions of 53 bits by a power of two. -/
theorem isNumber_fraction {c p : Nat} (hc : c < 2 ^ 53) (hp : p ≤ oneExponent) :
    IsNumber (c / 2 ^ p) := by
  have hnumber := isNumber_of_scaled (c := c) (by rwa [Int.natAbs_natCast, twoTo_eq])
    ((Nat.sub_le oneExponent p).trans (by decide))
  have hpow : (2 : ℚ) ^ oneExponent = 2 ^ p * 2 ^ (oneExponent - p) := by
    rw [← pow_add, Nat.add_sub_cancel' hp]
  rwa [hpow, mul_div_mul_right _ _ (by positivity), Int.cast_natCast] at hnumber

/-- The grid of the numbers from `k` to `k + 1`. -/
theorem exists_grid (hk : k < 2 ^ 52) :
    ∃ p ≤ 52, 0 < p ∧ (k + 1) * 2 ^ p ≤ 2 ^ 53 ∧ 2 ^ 52 ≤ max k 1 * 2 ^ p := by
  rcases Nat.eq_zero_or_pos k with rfl | hpos
  · exact ⟨52, le_rfl, by decide, by decide, by decide⟩
  · have hlog : k.log2 < 52 := (Nat.log2_lt hpos.ne').mpr hk
    have hlow : 2 ^ k.log2 ≤ k := Nat.log2_self_le hpos.ne'
    have hhigh : k < 2 ^ (k.log2 + 1) := Nat.lt_log2_self
    refine ⟨52 - k.log2, Nat.sub_le _ _, by omega, ?_, ?_⟩
    · calc (k + 1) * 2 ^ (52 - k.log2) ≤ 2 ^ (k.log2 + 1) * 2 ^ (52 - k.log2) :=
            Nat.mul_le_mul_right _ hhigh
        _ = 2 ^ 53 := by rw [← pow_add]; congr 1; omega
    · calc 2 ^ 52 = 2 ^ k.log2 * 2 ^ (52 - k.log2) := by rw [← pow_add]; congr 1; omega
        _ ≤ max k 1 * 2 ^ (52 - k.log2) := Nat.mul_le_mul_right _ (hlow.trans (le_max_left _ _))

/-- The numbers next to `k` and next to `k + 1` between the two. -/
theorem exists_beside (hk : k < 2 ^ 52) :
    ∃ step : ℚ, 0 < step ∧ IsNumber (k + step) ∧ IsNumber (k + 1 - step) ∧
      ∀ d : Nat, max k 1 * d < 2 ^ 53 → d * step < 2 := by
  obtain ⟨p, hp, hpos, htop, hbits⟩ := exists_grid hk
  have hpow : (2 : ℚ) ^ p ≠ 0 := by positivity
  have hp' : p ≤ oneExponent := hp.trans (by decide)
  have htwo : 2 ≤ 2 ^ p := Nat.le_pow hpos
  refine ⟨1 / 2 ^ p, by positivity, ?_, ?_, ?_⟩
  · have hnumber := isNumber_fraction (c := k * 2 ^ p + 1) (by rw [Nat.add_mul] at htop; omega) hp'
    push_cast at hnumber
    rwa [add_div, mul_div_cancel_right₀ _ hpow] at hnumber
  · have hone : 1 ≤ (k + 1) * 2 ^ p := Nat.mul_pos k.succ_pos (Nat.two_pow_pos p)
    have hnumber := isNumber_fraction (c := (k + 1) * 2 ^ p - 1) (by omega) hp'
    rw [Nat.cast_sub hone] at hnumber
    push_cast at hnumber
    rwa [sub_div, mul_div_cancel_right₀ _ hpow] at hnumber
  · intro d hd
    have hlt : d < 2 * 2 ^ p := by
      by_contra hge
      have hmul := Nat.mul_le_mul_left (max k 1) (Nat.not_lt.mp hge)
      have hdouble : max k 1 * (2 * 2 ^ p) = 2 * (max k 1 * 2 ^ p) := Nat.mul_left_comm _ _ _
      omega
    rw [mul_one_div, div_lt_iff₀ (by positivity)]
    exact_mod_cast hlt

end Grid

section Quotient

/-- A quotient between two whole numbers is rounded to a number between them. -/
theorem Rounded.quotient_between (hr : Rounded (m / d) r) (hfinite : r.isFinite = true)
    (hm : m < 2 ^ 53) (hd : d < 2 ^ 53) (hlow : k * d < m) (hhigh : m < (k + 1) * d) :
    (k : ℚ) < r.value ∧ r.value < k + 1 := by
  have hk : k < 2 ^ 52 := by
    rw [Nat.add_mul] at hhigh
    have hmul := Nat.mul_le_mul_left k (show 2 ≤ d by omega)
    omega
  have hsize : max k 1 * d < 2 ^ 53 := by
    rcases Nat.le_total k 1 with hle | hge
    · rw [max_eq_right hle, Nat.one_mul]
      exact hd
    · rw [max_eq_left hge]
      exact hlow.trans hm
  obtain ⟨step, hstep, ⟨a, ha, hafter⟩, ⟨b, hb, hbefore⟩, hfine⟩ := exists_beside hk
  have hpos : (0 : ℚ) < d := by
    have hne : 0 < d := Nat.pos_of_ne_zero fun hzero => by simp [hzero] at hhigh
    exact_mod_cast hne
  have hgap := hfine d hsize
  obtain ⟨x, hx⟩ : ∃ x : ℚ, m / d = x := ⟨_, rfl⟩
  have hmul : x * d = m := by rw [← hx, div_mul_cancel₀ _ hpos.ne']
  have hlow' : (k : ℚ) * d + 1 ≤ x * d := by
    rw [hmul]
    exact_mod_cast hlow
  have hhigh' : x * d + 1 ≤ (k + 1) * d := by
    rw [hmul]
    exact_mod_cast hhigh
  rw [hx] at hr
  -- A result that is not between them would be farther from the quotient than the number beside.
  constructor
  · by_contra hle
    have hmiddle := two_mul_le_of_closer (by linarith) (hr.closest hfinite ha)
    rw [hafter] at hmiddle
    nlinarith
  · by_contra hge
    have hmiddle := le_two_mul_of_closer (by linarith) (hr.closest hfinite hb)
    rw [hbefore] at hmiddle
    nlinarith

theorem floor_ceil_of_between {y : ℚ} (hlow : (k : ℚ) < y) (hhigh : y < k + 1) :
    ⌊y⌋ = k ∧ ⌈y⌉ = k + 1 := by
  rw [Int.floor_eq_iff, Int.ceil_eq_iff]
  push_cast
  exact ⟨⟨hlow.le, hhigh⟩, by linarith, hhigh.le⟩

/-- **Rounding does not take a quotient of whole numbers over a whole number.** -/
theorem Rounded.floor_quotient (hr : Rounded (m / d) r) (hm : m < 2 ^ 53) (hd : d < 2 ^ 53)
    (hpos : 0 < d) :
    r.isFinite = true ∧ ⌊r.value⌋ = ⌊(m : ℚ) / d⌋ ∧ ⌈r.value⌉ = ⌈(m : ℚ) / d⌉ := by
  have hpos' : (0 : ℚ) < d := by exact_mod_cast hpos
  rcases Nat.eq_zero_or_pos (m % d) with hzero | hrest
  · obtain ⟨q, rfl⟩ := Nat.dvd_of_mod_eq_zero hzero
    have hwhole : ((d * q : Nat) : ℚ) / d = (q : Int) := by
      rw [Nat.cast_mul, mul_div_cancel_left₀ _ hpos'.ne', Int.cast_natCast]
    have hsmall : (q : Int).natAbs < 2 ^ 53 := by
      rw [Int.natAbs_natCast]
      exact (Nat.le_mul_of_pos_left q hpos).trans_lt hm
    obtain ⟨hfinite, hvalue⟩ := hr.exact (hwhole ▸ isNumber_intCast hsmall)
    rw [hvalue]
    exact ⟨hfinite, rfl, rfl⟩
  · have hfinite : r.isFinite = true := by
      obtain ⟨a, ha, hvalue⟩ := isNumber_intCast (z := m) (by rwa [Int.natAbs_natCast])
      apply hr.isFinite_of_le ha
      rw [hvalue, Int.cast_natCast, abs_of_nonneg (by positivity), abs_of_nonneg (by positivity)]
      exact div_le_self (by positivity) (by exact_mod_cast hpos)
    have hdiv := Nat.div_add_mod' m d
    have hlt := Nat.mod_lt m hpos
    have hlow : m / d * d < m := by omega
    have hhigh : m < (m / d + 1) * d := by
      rw [Nat.add_mul]
      omega
    obtain ⟨hlow', hhigh'⟩ := hr.quotient_between hfinite hm hd hlow hhigh
    obtain ⟨hfloor, hceil⟩ := floor_ceil_of_between hlow' hhigh'
    obtain ⟨hfloor', hceil'⟩ := floor_ceil_of_between (y := m / d) (k := m / d)
      (by rw [lt_div_iff₀ hpos']; exact_mod_cast hlow)
      (by rw [div_lt_iff₀ hpos']; exact_mod_cast hhigh)
    exact ⟨hfinite, hfloor.trans hfloor'.symm, hceil.trans hceil'.symm⟩

end Quotient

end Binary64

end ErrorFree
