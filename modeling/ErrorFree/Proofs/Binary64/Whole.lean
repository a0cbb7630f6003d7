import ErrorFree.Proofs.Binary64.Exact

/-!
# Whole numbers

**Representable integers.**  `Representable n`: the number closest to the integer `n` is finite and
has exactly its value.  The integer part of every number is representable
(`representable_floorInt`), and taking it back to a number gives the number rounded down, with a
negative zero made positive (`ofInt_floorInt`).

**Order.**  On representable integers `ofInt` keeps the order (`ofInt_less_iff`) and tells them
apart (`ofInt_injOn`).
-/

namespace ErrorFree

namespace Binary64

/-- A natural number with a sign. -/
def signed (negative : Bool) (n : Nat) : Int := if negative then -(n : Int) else n

/-- The number one in units. -/
def unitsOfOne : Nat := twoTo oneExponent

/-- The integer is one of the numbers. -/
def Representable (n : Int) : Prop :=
  (ofInt n).isFinite = true ∧ (ofInt n).units = n * unitsOfOne

section Parts

variable {m e : Nat}

/-- A natural number of at most 53 bits has canonical parts. -/
theorem exists_canonical {n : Nat} (h : n < twoTo 53) :
    ∃ m e, Canonical m e ∧ oneExponent ≤ e ∧ m * twoTo (e - oneExponent) = n := by
  rcases Nat.eq_zero_or_pos n with rfl | hpos
  · exact ⟨0, oneExponent, by decide, Nat.le_refl _, Nat.zero_mul _⟩
  · obtain ⟨m, hm⟩ : ∃ m, n >>> trailingZeros n = m := ⟨_, rfl⟩
    have hodd : m % 2 = 1 := hm ▸ shiftRight_trailingZeros_mod_two hpos
    have hvalue : m * twoTo (trailingZeros n) = n := by
      rw [twoTo_eq, ← hm]
      exact shiftRight_trailingZeros_mul n
    have hle : m ≤ n :=
      calc m ≤ m * twoTo (trailingZeros n) := Nat.le_mul_of_pos_right m (twoTo_pos _)
        _ = n := hvalue
    have hzeros : twoTo (trailingZeros n) ≤ n :=
      calc twoTo (trailingZeros n) ≤ m * twoTo (trailingZeros n) :=
            Nat.le_mul_of_pos_left _ (by omega)
        _ = n := hvalue
    have hlt : trailingZeros n < 53 := by
      rcases Nat.lt_or_ge (trailingZeros n) 53 with hlt | hge
      · exact hlt
      · have := twoTo_le_twoTo hge
        omega
    refine ⟨m, oneExponent + trailingZeros n, ⟨by omega, ?_, Or.inl hodd⟩,
      Nat.le_add_right _ _, ?_⟩
    · left
      simp only [oneExponent]
      omega
    · rw [Nat.add_sub_cancel_left]
      exact hvalue

theorem natAbs_signed (s : Bool) (n : Nat) : (signed s n).natAbs = n := by
  unfold signed
  split <;> omega

theorem signed_neg_iff (s : Bool) (n : Nat) : signed s n < 0 ↔ s = true ∧ n ≠ 0 := by
  cases s with
  | false => simp [signed]
  | true =>
      simp only [signed, if_true, true_and]
      omega

theorem signed_mul (s : Bool) (n k : Nat) : signed s (n * k) = signed s n * k := by
  cases s with
  | false => exact Int.natCast_mul n k
  | true => simp only [signed, if_true, Int.natCast_mul, Int.neg_mul]

/-- The sign of zero makes no difference. -/
theorem signed_and_ne_zero (s : Bool) (m k : Nat) :
    signed (s && m != 0) (m * k) = signed s (m * k) := by
  rcases Nat.eq_zero_or_pos m with rfl | hpos
  · rw [Nat.zero_mul]
    cases s <;> rfl
  · have hne : (m != 0) = true := bne_iff_ne.mpr (Nat.ne_of_gt hpos)
    rw [hne, Bool.and_true]

/-- The number closest to a whole number with canonical parts. -/
theorem ofInt_signed (h : Canonical m e) (he : oneExponent ≤ e) (s : Bool) :
    ofInt (signed s (m * twoTo (e - oneExponent))) = .finite (s && m != 0) m e h := by
  have hsign : decide (signed s (m * twoTo (e - oneExponent)) < 0) = (s && m != 0) := by
    have hpos := Nat.ne_of_gt (twoTo_pos (e - oneExponent))
    rw [Bool.eq_iff_iff, decide_eq_true_iff, signed_neg_iff]
    simp only [ne_eq, Nat.mul_eq_zero, hpos, or_false, Bool.and_eq_true, bne_iff_ne]
  have hexact := ofScaled_mul_twoTo h (Nat.sub_le e oneExponent) (s && m != 0)
  rw [Nat.sub_sub_self he] at hexact
  unfold ofInt
  rw [natAbs_signed, hsign, hexact]

/-- The parts of a number rounded down. -/
theorem floor_parts {x : Binary64} (hx : x.isFinite = true) :
    ∃ s m e, ∃ h : Canonical m e, oneExponent ≤ e ∧ x.floor = .finite s m e h := by
  match x, hx with
  | .finite s m e h, _ =>
      by_cases hwhole : oneExponent ≤ e
      · exact ⟨s, m, e, h, hwhole, by simp [floor, hwhole]⟩
      · have hhalf : m >>> (oneExponent - e) ≤ m / 2 := by
          rw [Nat.shiftRight_eq_div_pow]
          apply Nat.div_le_div_left _ Nat.two_pos
          exact Nat.le_pow (by omega)
        have hsmall : m >>> (oneExponent - e) + s.toNat < twoTo 53 := by
          have hm := h.1
          have hs : s.toNat ≤ 1 := Bool.toNat_le s
          have hbig : 2 ≤ twoTo 53 := by decide
          omega
        obtain ⟨n, f, hcan, hf, hn⟩ := exists_canonical hsmall
        refine ⟨s, n, f, hcan, hf, ?_⟩
        have hexact := ofScaled_mul_twoTo hcan (Nat.sub_le f oneExponent) s
        rw [Nat.sub_sub_self hf] at hexact
        simp only [floor, hwhole, if_false]
        rw [← hn, hexact]

theorem wholePart_finite (h : Canonical m e) (he : oneExponent ≤ e) (s : Bool) :
    (finite s m e h).wholePart = m * twoTo (e - oneExponent) := by
  have hzero : oneExponent - e = 0 := by omega
  simp only [wholePart, numerator, denominator, hzero, twoTo_zero, Nat.div_one]

theorem floorInt_eq_signed {x : Binary64} {s : Bool} (h : Canonical m e) (he : oneExponent ≤ e)
    (hx : x.floor = .finite s m e h) : x.floorInt = signed s (m * twoTo (e - oneExponent)) := by
  unfold floorInt
  simp only [hx, wholePart_finite h he]
  rfl

theorem units_finite_whole (h : Canonical m e) (he : oneExponent ≤ e) (s : Bool) :
    (finite (s && m != 0) m e h).units =
      signed s (m * twoTo (e - oneExponent)) * unitsOfOne := by
  have hpow : m * Nat.pow 2 e = m * twoTo (e - oneExponent) * unitsOfOne := by
    rw [← twoTo_eq, unitsOfOne, Nat.mul_assoc, twoTo_sub_mul he]
  show signed (s && m != 0) (m * Nat.pow 2 e) = _
  rw [hpow, signed_mul, signed_and_ne_zero]

/-- A number with a positive zero added to it: only a negative zero changes. -/
theorem add_zero_whole (h : Canonical m e) (he : oneExponent ≤ e) (s : Bool) :
    finite s m e h + zero = .finite (s && m != 0) m e h := by
  have hmin : min e oneExponent = oneExponent := Nat.min_eq_right he
  have hexact := ofScaled_mul_twoTo h (Nat.sub_le e oneExponent) s
  rw [Nat.sub_sub_self he] at hexact
  show addAligned s (m * twoTo (e - oneExponent)) false (0 * twoTo (oneExponent - e))
    (min e oneExponent) = _
  unfold addAligned
  rw [hmin, Nat.zero_mul]
  cases s with
  | false => simpa using hexact
  | true =>
      rcases Nat.eq_zero_or_pos m with rfl | hpos
      · obtain rfl : e = oneExponent := by
          rcases h.2.2 with hodd | ⟨_, heq⟩
          · cases hodd
          · exact heq
        rw [Nat.zero_mul]
        rfl
      · have hmul := Nat.mul_pos hpos (twoTo_pos (e - oneExponent))
        have hne : m ≠ 0 := Nat.ne_of_gt hpos
        have hne' : (m != 0) = true := by simpa using hne
        simpa [hmul, hne'] using hexact

end Parts

section Representable

theorem unitsOfOne_pos : (0 : Int) < unitsOfOne :=
  Int.natCast_pos.mpr (twoTo_pos oneExponent)

theorem units_signedZero (s : Bool) : (signedZero s).units = 0 := by
  simp [signedZero, units, magnitude]

theorem representable_zero : Representable 0 := by
  have hcan : Canonical 0 oneExponent := by decide
  have hunits := units_finite_whole hcan (Nat.le_refl _) false
  simp only [Nat.zero_mul] at hunits
  exact ⟨rfl, hunits⟩

theorem floorInt_of_not_isFinite {x : Binary64} (hx : x.isFinite = false) : x.floorInt = 0 := by
  cases x with
  | nan => rfl
  | infinity s => cases s <;> rfl
  | finite s m e h => cases hx

/-- The integer part of a number is a number. -/
theorem representable_floorInt (x : Binary64) : Representable x.floorInt := by
  cases hx : x.isFinite with
  | true =>
      obtain ⟨s, m, e, h, he, hfloor⟩ := floor_parts hx
      rw [Representable, floorInt_eq_signed h he hfloor, ofInt_signed h he]
      exact ⟨rfl, units_finite_whole h he s⟩
  | false =>
      rw [floorInt_of_not_isFinite hx]
      exact representable_zero

/-- The integer part as a number: the number rounded down, never a negative zero; zero for what is
not finite. -/
theorem ofInt_floorInt (x : Binary64) :
    ofInt x.floorInt = if x.isFinite then x.floor + zero else zero := by
  cases hx : x.isFinite with
  | true =>
      obtain ⟨s, m, e, h, he, hfloor⟩ := floor_parts hx
      rw [floorInt_eq_signed h he hfloor, ofInt_signed h he, hfloor, add_zero_whole h he]
      rfl
  | false =>
      rw [floorInt_of_not_isFinite hx]
      rfl

variable {n k : Int}

/-- Among representable integers the order is that of the numbers. -/
theorem ofInt_less_iff (hn : Representable n) (hk : Representable k) :
    (ofInt n).less (ofInt k) = true ↔ n < k := by
  rw [less_iff_units_lt hn.1 hk.1, hn.2, hk.2]
  exact Int.mul_lt_mul_right unitsOfOne_pos

theorem ofInt_injOn (hn : Representable n) (hk : Representable k) (h : ofInt n = ofInt k) :
    n = k := by
  have hunits : (ofInt n).units = (ofInt k).units := by rw [h]
  rw [hn.2, hk.2] at hunits
  exact Int.eq_of_mul_eq_mul_right (Int.ne_of_gt unitsOfOne_pos) hunits

/-- No integer is a negative zero. -/
theorem ofInt_ne_negZero (hn : Representable n) : ofInt n ≠ signedZero true := by
  intro h
  have hunits := hn.2
  rw [h, units_signedZero] at hunits
  have hzero : n = 0 := by
    rcases Int.mul_eq_zero.mp hunits.symm with hzero | hpow
    · exact hzero
    · exact absurd hpow (Int.ne_of_gt unitsOfOne_pos)
  rw [hzero] at h
  cases h

end Representable

end Binary64

end ErrorFree
