import ErrorFree.Proofs.Binary64.Whole
import Mathlib.Algebra.Order.Field.Power
import Mathlib.Data.Rat.Floor
import Mathlib.Tactic.FieldSimp
import Mathlib.Tactic.Linarith
import Mathlib.Tactic.Positivity
import Mathlib.Tactic.Ring

/-!
# Exact values

**Values.**  `value` is the exact value of a finite number, and decides its order and, but for the
sign of zero, the number itself.  `IsNumber`: a rational number is the value of one.

**Numbers.**  The numbers are the multiples `c · 2 ^ e` of the unit with a `c` of at most 53 bits
(`isNumber_of_scaled`, `IsNumber.exists_scaled`).  So whole numbers of 53 bits are numbers, and a
number moved by a whole number is one again, if that takes it closer to zero
(`IsNumber.add_intCast`).

**Whole numbers.**  `value_floor`, `value_ceil`: rounding to a whole number is exact.  `value_ofInt`,
`floorInt_eq_floor`: integers and integer parts as values.
-/

namespace ErrorFree

namespace Binary64

section Values

/-- The exact value of a finite number; zero for what is not finite. -/
def value (x : Binary64) : ℚ := x.units / 2 ^ oneExponent

/-- The rational number is one of the numbers. -/
def IsNumber (x : ℚ) : Prop := ∃ y : Binary64, y.isFinite = true ∧ y.value = x

theorem cast_twoTo (k : Nat) : ((twoTo k : Nat) : ℚ) = 2 ^ k := by
  rw [twoTo_eq]
  exact Nat.cast_pow 2 k

theorem cast_signed (s : Bool) (n : Nat) : ((signed s n : Int) : ℚ) = if s then -(n : ℚ) else n := by
  cases s <;> simp [signed]

theorem abs_cast_signed (s : Bool) (n : Nat) : |((signed s n : Int) : ℚ)| = n := by
  cases s <;> simp [signed]

theorem signed_not (s : Bool) (n : Nat) : signed (!s) n = -signed s n := by
  cases s <;> simp [signed]

theorem exists_parts {x : Binary64} (hx : x.isFinite = true) :
    ∃ s m e, ∃ h : Canonical m e, x = .finite s m e h := by
  cases x with
  | nan => cases hx
  | infinity s => cases hx
  | finite s m e h => exact ⟨s, m, e, h, rfl⟩

@[simp] theorem value_zero : zero.value = 0 := by
  simp [value, units, zero, magnitude]

theorem value_finite {m e : Nat} (h : Canonical m e) (s : Bool) :
    (finite s m e h).value = (signed s m : Int) * 2 ^ e / 2 ^ oneExponent := by
  have hunits : (finite s m e h).units = signed s (m * Nat.pow 2 e) := rfl
  rw [value, hunits, signed_mul, ← twoTo_eq, Int.cast_mul, Int.cast_natCast, cast_twoTo]

theorem value_eq_zero_iff {m e : Nat} (h : Canonical m e) (s : Bool) :
    (finite s m e h).value = 0 ↔ m = 0 := by
  rw [value_finite, cast_signed]
  cases s <;> simp

theorem value_neg (x : Binary64) : x.neg.value = -x.value := by
  cases x with
  | nan => simp [neg, value, units, isNegative, magnitude]
  | infinity s => simp [neg, value, units, magnitude]
  | finite s m e h =>
      rw [neg, value_finite, value_finite, signed_not]
      push_cast
      ring

theorem isFinite_neg (x : Binary64) : x.neg.isFinite = x.isFinite := by
  cases x <;> rfl

theorem IsNumber.neg {x : ℚ} (h : IsNumber x) : IsNumber (-x) := by
  obtain ⟨y, hy, rfl⟩ := h
  exact ⟨y.neg, by rw [isFinite_neg, hy], value_neg y⟩

theorem isFinite_abs (x : Binary64) : x.abs.isFinite = x.isFinite := by
  cases x <;> rfl

theorem value_abs {x : Binary64} (hx : x.isFinite = true) : x.abs.value = |x.value| := by
  obtain ⟨s, m, e, h, rfl⟩ := exists_parts hx
  rw [abs, value_finite, value_finite, abs_div, abs_mul, abs_of_pos (by positivity : (0 : ℚ) < 2 ^ e),
    abs_of_pos (by positivity : (0 : ℚ) < 2 ^ oneExponent), cast_signed, cast_signed]
  cases s <;> simp

theorem isNumber_value {x : Binary64} (h : x.isFinite = true) : IsNumber x.value := ⟨x, h, rfl⟩

theorem less_iff_value_lt {a b : Binary64} (ha : a.isFinite = true) (hb : b.isFinite = true) :
    a.less b = true ↔ a.value < b.value := by
  rw [less_iff_units_lt ha hb, value, value, div_lt_div_iff_of_pos_right (by positivity)]
  exact Int.cast_lt.symm

end Values

section Assembling

theorem assemble_not (s : Bool) (m e : Nat) : assemble (!s) m e = (assemble s m e).neg := by
  unfold assemble
  split
  · rfl
  · dsimp only
    split <;> rfl

theorem nearest_not (s : Bool) (n d : Nat) (k : Int) :
    nearest (!s) n d k = (nearest s n d k).neg := by
  unfold nearest
  split
  · rfl
  · exact assemble_not s _ _

theorem ofScaled_not (s : Bool) (n k : Nat) : ofScaled (!s) n k = (ofScaled s n k).neg := by
  unfold ofScaled
  split
  · exact assemble_not s n k
  · exact nearest_not s n 1 k

theorem magnitude_lt {m e : Nat} (h : Canonical m e) : m * twoTo e < twoTo (53 + 2045) := by
  rw [twoTo_add]
  rcases h.2.1 with hle | hlt
  · exact Nat.mul_lt_mul_of_lt_of_le h.1 (twoTo_le_twoTo hle) (twoTo_pos _)
  · rcases Nat.le_total e 2045 with hle | hge
    · exact Nat.mul_lt_mul_of_lt_of_le h.1 (twoTo_le_twoTo hle) (twoTo_pos _)
    · rw [← twoTo_sub_mul hge, ← Nat.mul_assoc]
      exact Nat.mul_lt_mul_of_pos_right hlt (twoTo_pos _)

theorem canonical_of_odd {m e j : Nat} (hodd : m % 2 = 1) (hm : m * twoTo j ≤ twoTo 53)
    (hlt : m * twoTo j * twoTo e < twoTo (53 + 2045)) : Canonical m (e + j) := by
  have hsmall : m < twoTo 53 := by
    have hle : m ≤ m * twoTo j := Nat.le_mul_of_pos_right m (twoTo_pos j)
    have heven : twoTo 53 % 2 = 0 := by decide
    omega
  refine ⟨hsmall, ?_, Or.inl hodd⟩
  rcases Nat.le_total (e + j) 2045 with hle | hge
  · left
    exact hle
  · right
    rw [twoTo_add, Nat.mul_assoc, ← twoTo_add, Nat.add_comm j e, ← twoTo_sub_mul hge,
      ← Nat.mul_assoc] at hlt
    exact Nat.lt_of_mul_lt_mul_right hlt

/-- A significand of at most `2 ^ 53` gives a finite number, if that is not too large. -/
theorem isFinite_assemble {m e : Nat} (s : Bool) (hm : m ≤ twoTo 53)
    (hlt : m * twoTo e < twoTo (53 + 2045)) : (assemble s m e).isFinite = true := by
  rcases Nat.eq_zero_or_pos m with rfl | hpos
  · rfl
  · have hvalue := shiftRight_trailingZeros_mul m
    rw [← twoTo_eq] at hvalue
    have hcanonical : Canonical (m >>> trailingZeros m) (e + trailingZeros m) :=
      canonical_of_odd (shiftRight_trailingZeros_mod_two hpos) (by rwa [hvalue]) (by rwa [hvalue])
    simp only [assemble, Nat.ne_of_gt hpos, if_false, dif_pos hcanonical, isFinite]

theorem isNegative_assemble (s : Bool) (m e : Nat) : (assemble s m e).isNegative = s := by
  unfold assemble
  split
  · rfl
  · dsimp only
    split <;> rfl

theorem value_assemble {m e : Nat} {s : Bool} (h : (assemble s m e).isFinite = true) :
    (assemble s m e).value = (signed s m : Int) * 2 ^ e / 2 ^ oneExponent := by
  have hunits : (assemble s m e).units = signed s (m * twoTo e) := by
    rw [units, isNegative_assemble, magnitude_assemble s m e h, twoTo_eq]
    rfl
  rw [value, hunits, signed_mul, Int.cast_mul, Int.cast_natCast, cast_twoTo]

/-- Whole multiples of a power of two, of at most 53 bits. -/
theorem isNumber_of_scaled {c : Int} {e : Nat} (hc : c.natAbs < twoTo 53) (he : e ≤ 2045) :
    IsNumber (c * 2 ^ e / 2 ^ oneExponent) := by
  have hlt : c.natAbs * twoTo e < twoTo (53 + 2045) := by
    rw [twoTo_add]
    exact Nat.mul_lt_mul_of_lt_of_le hc (twoTo_le_twoTo he) (twoTo_pos _)
  have hfinite := isFinite_assemble (decide (c < 0)) (Nat.le_of_lt hc) hlt
  have hsigned : signed (decide (c < 0)) c.natAbs = c := by
    unfold signed
    split
    · rename_i hneg
      have := of_decide_eq_true hneg
      omega
    · rename_i hneg
      have : ¬ c < 0 := fun h => hneg (decide_eq_true h)
      omega
  refine ⟨_, hfinite, ?_⟩
  rw [value_assemble hfinite, hsigned]

theorem IsNumber.exists_scaled {x : ℚ} (h : IsNumber x) :
    ∃ (c : Int) (e : Nat), c.natAbs < twoTo 53 ∧ (c.natAbs * twoTo e < twoTo (53 + 2045)) ∧
      x = c * 2 ^ e / 2 ^ oneExponent := by
  obtain ⟨y, hy, rfl⟩ := h
  match y, hy with
  | .finite s m e h, _ =>
      refine ⟨signed s m, e, ?_, ?_, value_finite h s⟩
      · rw [natAbs_signed]
        exact h.1
      · rw [natAbs_signed]
        exact magnitude_lt h

end Assembling

section Whole

variable {x : Binary64}

theorem isFinite_ofScaled {n : Nat} (s : Bool) (h : n < twoTo 53) :
    (ofScaled s n oneExponent).isFinite = true := by
  rw [ofScaled, if_pos h]
  apply isFinite_assemble s h.le
  rw [twoTo_add]
  exact Nat.mul_lt_mul_of_lt_of_le h (twoTo_le_twoTo (by decide)) (twoTo_pos _)

theorem value_ofScaled {n : Nat} (s : Bool) (h : n < twoTo 53) :
    (ofScaled s n oneExponent).value = (signed s n : Int) := by
  have hfinite := isFinite_ofScaled s h
  rw [ofScaled, if_pos h] at hfinite ⊢
  rw [value_assemble hfinite, mul_div_cancel_right₀ _ (by positivity)]

theorem isFinite_ofNat {n : Nat} (h : n < twoTo 53) : (ofNat n).isFinite = true :=
  isFinite_ofScaled false h

theorem value_ofNat {n : Nat} (h : n < twoTo 53) : (ofNat n).value = n := by
  rw [ofNat, value_ofScaled false h]
  exact Int.cast_natCast n

theorem isNumber_intCast {z : Int} (h : z.natAbs < 2 ^ 53) : IsNumber z := by
  have hbits : z.natAbs < twoTo 53 := by
    rw [twoTo_eq]
    exact h
  have hnumber := isNumber_of_scaled hbits (e := oneExponent) (by decide)
  rwa [mul_div_cancel_right₀ _ (by positivity)] at hnumber

theorem value_finite_whole {m e : Nat} (h : Canonical m e) (he : oneExponent ≤ e) (s : Bool) :
    (finite s m e h).value = (signed s (m * twoTo (e - oneExponent)) : Int) := by
  have hpow : (2 : ℚ) ^ e = 2 ^ (e - oneExponent) * 2 ^ oneExponent := by
    rw [← pow_add, Nat.sub_add_cancel he]
  rw [value_finite, signed_mul, hpow, ← mul_assoc, mul_div_cancel_right₀ _ (by positivity),
    Int.cast_mul, Int.cast_natCast, cast_twoTo]

theorem value_finite_fraction {m e : Nat} (h : Canonical m e) (he : ¬ oneExponent ≤ e) (s : Bool) :
    (finite s m e h).value = (signed s m : Int) / (2 ^ (oneExponent - e) : Nat) := by
  have hpow : (2 : ℚ) ^ oneExponent = 2 ^ (oneExponent - e) * 2 ^ e := by
    rw [← pow_add, Nat.sub_add_cancel (by omega)]
  rw [value_finite, hpow, mul_div_mul_right _ _ (by positivity)]
  push_cast
  rfl

/-- The whole numbers around the fraction of an odd number by a power of two. -/
theorem floor_signed_div {m j : Nat} (hodd : m % 2 = 1) (hj : j ≠ 0) (s : Bool) :
    ⌊((signed s m : Int) : ℚ) / (2 ^ j : Nat)⌋ = signed s (m / 2 ^ j + s.toNat) := by
  have hpos : (0 : ℚ) < (2 ^ j : Nat) := by positivity
  have hdiv : ((2 ^ j : Nat) : ℚ) * (m / 2 ^ j : Nat) + (m % 2 ^ j : Nat) = m := by
    exact_mod_cast Nat.div_add_mod m (2 ^ j)
  have hlt : ((m % 2 ^ j : Nat) : ℚ) < (2 ^ j : Nat) := by
    exact_mod_cast Nat.mod_lt m (Nat.two_pow_pos j)
  have hrest : (0 : ℚ) < (m % 2 ^ j : Nat) := by
    rcases Nat.eq_zero_or_pos (m % 2 ^ j) with hzero | hrest
    · have htwo : 2 ∣ m := (dvd_pow_self 2 hj).trans (Nat.dvd_of_mod_eq_zero hzero)
      omega
    · exact_mod_cast hrest
  rw [Int.floor_eq_iff, le_div_iff₀ hpos, div_lt_iff₀ hpos, cast_signed, cast_signed]
  cases s with
  | false =>
      simp only [Bool.false_eq_true, if_false, Bool.toNat_false, Nat.add_zero]
      constructor <;> linarith
  | true =>
      simp only [if_true, Bool.toNat_true]
      push_cast at *
      constructor <;> linarith

theorem isNumber_two_pow {k : Nat} (h : oneExponent + k ≤ 2045) : IsNumber (2 ^ k) := by
  have hnumber := isNumber_of_scaled (c := 1) (by decide) h
  rwa [pow_add, Int.cast_one, one_mul, mul_div_cancel_left₀ _ (by positivity)] at hnumber

/-- Whole numbers up to `2 ^ 53` are numbers. -/
theorem isNumber_intCast_of_le {z : Int} (h : z.natAbs ≤ 2 ^ 53) : IsNumber z := by
  rcases Nat.lt_or_eq_of_le h with hlt | heq
  · exact isNumber_intCast hlt
  · have hbound : IsNumber (2 ^ 53) := isNumber_two_pow (by decide)
    rcases Int.natAbs_eq z with hpos | hneg
    · rw [hpos, heq]
      exact_mod_cast hbound
    · rw [hneg, heq]
      exact_mod_cast hbound.neg

/-- Rounding down to a whole number is exact. -/
theorem value_floor (hx : x.isFinite = true) :
    x.floor.isFinite = true ∧ x.floor.value = (⌊x.value⌋ : ℚ) := by
  obtain ⟨s, m, e, h, rfl⟩ := exists_parts hx
  by_cases hwhole : oneExponent ≤ e
  · have hfloor : (finite s m e h).floor = .finite s m e h := by simp [floor, hwhole]
    rw [hfloor, value_finite_whole h hwhole, Int.floor_intCast]
    exact ⟨rfl, rfl⟩
  · have hodd : m % 2 = 1 := by
      rcases h.2.2 with hodd | ⟨_, he⟩
      · exact hodd
      · omega
    have hhalf : m / 2 ^ (oneExponent - e) ≤ m / 2 :=
      Nat.div_le_div_left (Nat.le_pow (by omega)) Nat.two_pos
    have hsmall : m / 2 ^ (oneExponent - e) + s.toNat < twoTo 53 := by
      have hm := h.1
      have hs : s.toNat ≤ 1 := Bool.toNat_le s
      have hbig : 2 ≤ twoTo 53 := by decide
      omega
    have hfloor : (finite s m e h).floor =
        ofScaled s (m / 2 ^ (oneExponent - e) + s.toNat) oneExponent := by
      simp [floor, hwhole, Nat.shiftRight_eq_div_pow]
    rw [hfloor, value_ofScaled s hsmall, value_finite_fraction h hwhole,
      floor_signed_div hodd (by omega)]
    exact ⟨isFinite_ofScaled s hsmall, rfl⟩

theorem value_ofInt {n : Int} (hn : Representable n) : (ofInt n).value = n := by
  rw [value, hn.2, unitsOfOne, Int.cast_mul, Int.cast_natCast, cast_twoTo,
    mul_div_cancel_right₀ _ (by positivity)]

/-- The integer part of a number is its value rounded down. -/
theorem floorInt_eq_floor (hx : x.isFinite = true) : x.floorInt = ⌊x.value⌋ := by
  obtain ⟨s, m, e, h, he, hfloor⟩ := floor_parts hx
  have hvalue := (value_floor hx).2
  rw [hfloor, value_finite_whole h he] at hvalue
  rw [floorInt_eq_signed h he hfloor]
  exact_mod_cast hvalue

theorem neg_floor_neg (x : Binary64) : x.neg.floor.neg = x.ceil := by
  cases x with
  | nan => rfl
  | infinity s => simp [neg, floor, ceil]
  | finite s m e h =>
      rw [neg, floor, ceil]
      split
      · simp [neg]
      · rw [← ofScaled_not, Bool.not_not]

/-- Rounding up to a whole number is exact. -/
theorem value_ceil (h : x.isFinite = true) :
    x.ceil.isFinite = true ∧ x.ceil.value = (⌈x.value⌉ : ℚ) := by
  obtain ⟨hfinite, hvalue⟩ := value_floor (isFinite_neg x ▸ h : x.neg.isFinite = true)
  rw [← neg_floor_neg, isFinite_neg, value_neg, hvalue, value_neg, Int.floor_neg]
  refine ⟨hfinite, ?_⟩
  push_cast
  ring

/-- Equal values that are not zero are one number. -/
theorem eq_of_value_eq {a b : Binary64} (ha : a.isFinite = true) (hb : b.isFinite = true)
    (hne : a.value ≠ 0) (h : a.value = b.value) : a = b := by
  obtain ⟨s, m, e, hm, rfl⟩ := exists_parts ha
  obtain ⟨t, n, f, hn, rfl⟩ := exists_parts hb
  have hunits : signed s (m * twoTo e) = signed t (n * twoTo f) := by
    rw [value_finite, value_finite, div_left_inj' (by positivity), ← cast_twoTo, ← cast_twoTo] at h
    rw [signed_mul, signed_mul]
    exact_mod_cast h
  have hpos : 0 < m * twoTo e := by
    apply Nat.mul_pos _ (twoTo_pos e)
    exact Nat.pos_of_ne_zero fun hzero => hne ((value_eq_zero_iff hm s).mpr hzero)
  have hsame : s = t ∧ m * twoTo e = n * twoTo f := by
    cases s <;> cases t <;> simp only [signed, if_true, Bool.false_eq_true, if_false] at hunits <;>
      simp <;> omega
  have hleft := assemble_mul_twoTo hm (Nat.le_refl e) s
  have hright := assemble_mul_twoTo hn (Nat.le_refl f) t
  rw [Nat.sub_self] at hleft hright
  rw [← hleft, ← hright, hsame.1, hsame.2]

theorem eq_signedZero (hx : x.isFinite = true) (h : x.value = 0) : ∃ s, x = signedZero s := by
  obtain ⟨s, m, e, hm, rfl⟩ := exists_parts hx
  obtain rfl := (value_eq_zero_iff hm s).mp h
  rcases hm.2.2 with hodd | ⟨-, rfl⟩
  · cases hodd
  · exact ⟨s, rfl⟩

theorem equal_iff_value_eq {a b : Binary64} (ha : a.isFinite = true) (hb : b.isFinite = true) :
    a.equal b = true ↔ a.value = b.value := by
  constructor
  · intro h
    obtain ⟨s, m, e, hm, rfl⟩ := exists_parts ha
    obtain ⟨t, n, f, hn, rfl⟩ := exists_parts hb
    simp only [equal, Bool.and_eq_true, Bool.or_eq_true, beq_iff_eq] at h
    obtain ⟨⟨rfl, rfl⟩, rfl | rfl⟩ := h
    · rfl
    · rw [(value_eq_zero_iff hm s).mpr rfl, (value_eq_zero_iff hn t).mpr rfl]
  · intro h
    by_cases hzero : a.value = 0
    · rw [hzero] at h
      obtain ⟨s, rfl⟩ := eq_signedZero ha hzero
      obtain ⟨t, rfl⟩ := eq_signedZero hb h.symm
      simp [equal, signedZero]
    · obtain rfl := eq_of_value_eq ha hb hzero h
      obtain ⟨s, m, e, hm, rfl⟩ := exists_parts ha
      simp [equal]

/-- A number rounded down is numerically equal to an integer, if it is finite and that is its integer
part. -/
theorem floor_equal_ofInt_iff {n : Int} (hn : Representable n) :
    x.floor.equal (ofInt n) = true ↔ x.isFinite = true ∧ x.floorInt = n := by
  cases hx : x.isFinite with
  | true =>
      obtain ⟨hfinite, hvalue⟩ := value_floor hx
      rw [equal_iff_value_eq hfinite hn.1, hvalue, value_ofInt hn, floorInt_eq_floor hx]
      simp
  | false =>
      obtain ⟨s, m, e, h, hparts⟩ := exists_parts hn.1
      rw [hparts]
      cases x with
      | nan => simp [floor, equal]
      | infinity t => simp [floor, equal]
      | finite t k f h => cases hx

theorem lessEq_iff_value_le {a b : Binary64} (ha : a.isFinite = true) (hb : b.isFinite = true) :
    a.lessEq b = true ↔ a.value ≤ b.value := by
  rw [lessEq, Bool.or_eq_true, less_iff_value_lt ha hb, equal_iff_value_eq ha hb, le_iff_lt_or_eq]

theorem isFinite_of_abs_lessEq {a b : Binary64} (hb : b.isFinite = true)
    (h : a.abs.lessEq b = true) : a.isFinite = true := by
  obtain ⟨t, n, f, hn, rfl⟩ := exists_parts hb
  cases a with
  | nan => simp [abs, lessEq, less, equal] at h
  | infinity s => simp [abs, lessEq, less, equal] at h
  | finite s m e hm => rfl

/-- The whole part of a number that is a natural number. -/
theorem toNatClamped_of_value {n limit : Nat} (hx : x.isFinite = true) (hvalue : x.value = n)
    (hle : n ≤ limit) : x.toNatClamped limit = n := by
  obtain ⟨s, m, e, h, rfl⟩ := exists_parts hx
  have hunits : signed s (m * twoTo e) = (n * twoTo oneExponent : Nat) := by
    rw [value_finite, div_eq_iff (by positivity), ← cast_twoTo, ← cast_twoTo] at hvalue
    rw [signed_mul]
    exact_mod_cast hvalue
  cases s with
  | false =>
      have hmul : m * twoTo e = n * twoTo oneExponent := Int.ofNat_inj.mp hunits
      have hwhole : (finite false m e h).wholePart = n := by
        have hnumerator : m * twoTo (e - oneExponent) = n * twoTo (oneExponent - e) := by
          apply Nat.eq_of_mul_eq_mul_right (twoTo_pos (min e oneExponent))
          rw [Nat.mul_assoc, Nat.mul_assoc, ← twoTo_add, ← twoTo_add]
          have he : e - oneExponent + min e oneExponent = e := by omega
          have hone : oneExponent - e + min e oneExponent = oneExponent := by omega
          rw [he, hone, hmul]
        rw [wholePart, numerator, denominator, hnumerator]
        exact Nat.mul_div_cancel n (twoTo_pos _)
      rw [toNatClamped, hwhole]
      exact Nat.min_eq_left hle
  | true =>
      have hzero : n * twoTo oneExponent = 0 := by
        simp only [signed, if_true] at hunits
        omega
      have hpos := twoTo_pos oneExponent
      rw [Nat.mul_eq_zero] at hzero
      simp only [toNatClamped, if_true]
      omega

/-- A number moved by a whole number is a number, if that takes it closer to zero. -/
theorem IsNumber.add_intCast {x : ℚ} (hx : IsNumber x) {z : Int} (hcloser : |x + z| ≤ |x|)
    (hsmall : |x + z| < 2 ^ 53) : IsNumber (x + z) := by
  obtain ⟨c, e, hc, -, rfl⟩ := hx.exists_scaled
  rcases le_total oneExponent e with hge | hle
  · have hpow : (2 : ℚ) ^ e = 2 ^ (e - oneExponent) * 2 ^ oneExponent := by
      rw [← pow_add, Nat.sub_add_cancel hge]
    have hwhole : (c : ℚ) * 2 ^ e / 2 ^ oneExponent + z = ((c * 2 ^ (e - oneExponent) + z : Int) : ℚ) := by
      rw [hpow, ← mul_assoc, mul_div_cancel_right₀ _ (by positivity)]
      push_cast
      rfl
    rw [hwhole] at hsmall ⊢
    apply isNumber_intCast
    have habs : ((c * 2 ^ (e - oneExponent) + z).natAbs : ℚ) < (2 ^ 53 : Nat) := by
      rw [Nat.cast_natAbs, Int.cast_abs]
      exact_mod_cast hsmall
    exact_mod_cast habs
  · have hpow : (2 : ℚ) ^ oneExponent = 2 ^ (oneExponent - e) * 2 ^ e := by
      rw [← pow_add, Nat.sub_add_cancel hle]
    have hsum : (c : ℚ) * 2 ^ e / 2 ^ oneExponent + z =
        ((c + z * 2 ^ (oneExponent - e) : Int) : ℚ) * 2 ^ e / 2 ^ oneExponent := by
      push_cast
      rw [add_mul, add_div, mul_assoc (z : ℚ), ← hpow, mul_div_cancel_right₀ _ (by positivity)]
    rw [hsum] at hcloser ⊢
    apply isNumber_of_scaled _ (hle.trans (by decide))
    refine lt_of_le_of_lt ?_ hc
    rw [abs_div, abs_div, div_le_div_iff_of_pos_right (by positivity), abs_mul, abs_mul,
      mul_le_mul_iff_left₀ (by positivity)] at hcloser
    rw [← Int.ofNat_le, Int.natCast_natAbs, Int.natCast_natAbs]
    exact_mod_cast hcloser

end Whole

end Binary64

end ErrorFree
