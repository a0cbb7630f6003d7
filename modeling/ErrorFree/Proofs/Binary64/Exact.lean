import ErrorFree.Binary64.Arithmetic

/-!
# Results that need no rounding

**Canonical parts.**  A value `m · 2 ^ e` with canonical parts is put together unchanged, however
its power of two is split between the significand and the exponent (`assemble_mul_twoTo`), and
rounding to the nearest number leaves it alone (`nearest_mul_twoTo`).  So `ofScaled` is exact on
every value that is a number (`ofScaled_mul_twoTo`).
-/

namespace ErrorFree

namespace Binary64

section Powers

theorem twoTo_pos (k : Nat) : 0 < twoTo k := by
  rw [twoTo_eq]
  exact Nat.pow_pos Nat.two_pos

theorem twoTo_zero : twoTo 0 = 1 := twoTo_eq 0

theorem twoTo_add (j k : Nat) : twoTo (j + k) = twoTo j * twoTo k := by
  rw [twoTo_eq, twoTo_eq, twoTo_eq]
  exact Nat.pow_add 2 j k

theorem twoTo_succ (k : Nat) : twoTo (k + 1) = 2 * twoTo k := by
  rw [Nat.add_comm, twoTo_add]
  rfl

theorem twoTo_sub_mul {j k : Nat} (h : j ≤ k) : twoTo (k - j) * twoTo j = twoTo k := by
  rw [← twoTo_add, Nat.sub_add_cancel h]

theorem twoTo_le_twoTo {j k : Nat} (h : j ≤ k) : twoTo j ≤ twoTo k := by
  rw [twoTo_eq, twoTo_eq]
  exact Nat.pow_le_pow_right Nat.two_pos h

theorem twoTo_log2_le {n : Nat} (h : n ≠ 0) : twoTo n.log2 ≤ n := by
  rw [twoTo_eq]
  exact Nat.log2_self_le h

theorem log2_lt_of_lt_twoTo {n k : Nat} (h : n ≠ 0) (hlt : n < twoTo k) : n.log2 < k := by
  rw [twoTo_eq] at hlt
  exact (Nat.log2_lt h).mpr hlt

theorem le_log2_of_twoTo_le {n k : Nat} (h : n ≠ 0) (hle : twoTo k ≤ n) : k ≤ n.log2 := by
  rw [twoTo_eq] at hle
  exact (Nat.le_log2 h).mpr hle

/-- The trailing zeros of an odd number times a power of two. -/
theorem trailingZeros_mul_twoTo {m : Nat} (h : m % 2 = 1) (j : Nat) :
    trailingZeros (m * twoTo j) = j := by
  induction j with
  | zero =>
      obtain ⟨k, rfl⟩ : ∃ k, m = 2 * k + 1 := ⟨m / 2, by omega⟩
      rw [twoTo_zero, Nat.mul_one]
      exact trailingZeros_odd k
  | succ j ih =>
      have hpos : 0 < m * twoTo j := Nat.mul_pos (by omega) (twoTo_pos j)
      rw [twoTo_succ, Nat.mul_left_comm, trailingZeros_double hpos, ih]

theorem mul_twoTo_shiftRight (m j : Nat) : (m * twoTo j) >>> j = m := by
  rw [Nat.shiftRight_eq_div_pow, twoTo_eq]
  exact Nat.mul_div_cancel m (Nat.pow_pos Nat.two_pos)

end Powers

section Parts

variable {m e j : Nat}

/-- Canonical parts with some of the power of two moved into the significand. -/
theorem assemble_mul_twoTo (h : Canonical m e) (hj : j ≤ e) (s : Bool) :
    assemble s (m * twoTo j) (e - j) = .finite s m e h := by
  rcases h.2.2 with hodd | ⟨rfl, rfl⟩
  · have hne : m * twoTo j ≠ 0 :=
      Nat.ne_of_gt (Nat.mul_pos (by omega) (twoTo_pos j))
    have hexp : e - j + j = e := Nat.sub_add_cancel hj
    unfold assemble
    simp only [hne, if_false, trailingZeros_mul_twoTo hodd, mul_twoTo_shiftRight, hexp, h,
      dif_pos]
  · unfold assemble
    rw [if_pos (Nat.zero_mul _)]
    rfl

/-- A whole quotient is not rounded. -/
theorem roundHalfEven_mul {d : Nat} (h : 0 < d) (q : Nat) : roundHalfEven (q * d) d = q := by
  unfold roundHalfEven
  simp only [Nat.mul_mod_left, Nat.mul_zero, if_pos h]
  exact Nat.mul_div_cancel q h

theorem leadingBit_one {n : Nat} (h : n ≠ 0) : leadingBit n 1 = n.log2 := by
  have hle : ¬ n < twoTo n.log2 := Nat.not_lt.mpr (twoTo_log2_le h)
  have hone : Nat.log2 1 = 0 := rfl
  have hzero : (-(n.log2 : Int)).toNat = 0 := by omega
  unfold leadingBit
  simp only [hone, Int.natCast_zero, Int.sub_zero, Int.toNat_natCast, hzero, Nat.one_mul,
    twoTo_zero, Nat.mul_one, hle, if_false]

/-- Of a value with canonical parts no bit lies below the last one that rounding keeps. -/
theorem log2_mul_twoTo_le (h : Canonical m e) (hne : m * twoTo j ≠ 0) :
    (m * twoTo j).log2 ≤ j + 52 := by
  have hlt : m * twoTo j < twoTo (53 + j) := by
    rw [twoTo_add]
    exact Nat.mul_lt_mul_of_pos_right h.1 (twoTo_pos j)
  have := log2_lt_of_lt_twoTo hne hlt
  omega

/-- Rounding leaves a value with canonical parts alone, if it has more than 53 bits. -/
theorem nearest_mul_twoTo (h : Canonical m e) (hj : j ≤ e) (hlarge : twoTo 53 ≤ m * twoTo j)
    (s : Bool) : nearest s (m * twoTo j) 1 (e - j : Nat) = .finite s m e h := by
  have hne : m * twoTo j ≠ 0 := Nat.ne_of_gt (Nat.lt_of_lt_of_le (twoTo_pos 53) hlarge)
  have hlow := le_log2_of_twoTo_le hne hlarge
  have hhigh := log2_mul_twoTo_le h hne
  -- The bits that do not fit are `shift` of the `j` zeros at the end.
  obtain ⟨shift, hshift⟩ : ∃ shift, (m * twoTo j).log2 = shift + 52 :=
    ⟨(m * twoTo j).log2 - 52, by omega⟩
  have hexp : ((shift + 52 : Nat) + (e - j : Nat) - 52 : Int).toNat = e - (j - shift) := by omega
  have hdown : ((e - (j - shift) : Nat) - (e - j : Nat) : Int).toNat = shift := by omega
  have hup : (-((e - (j - shift) : Nat) - (e - j : Nat) : Int)).toNat = 0 := by omega
  have hsplit : m * twoTo j = m * twoTo (j - shift) * twoTo shift := by
    rw [Nat.mul_assoc, twoTo_sub_mul (by omega)]
  unfold nearest
  rw [if_neg hne, leadingBit_one hne, hshift]
  simp only [hexp, hdown, hup, twoTo_zero, Nat.mul_one, Nat.one_mul]
  rw [hsplit, roundHalfEven_mul (twoTo_pos shift)]
  exact assemble_mul_twoTo h (by omega) s

/-- **Exact values.**  A value with canonical parts is a number, and `ofScaled` gives it. -/
theorem ofScaled_mul_twoTo (h : Canonical m e) (hj : j ≤ e) (s : Bool) :
    ofScaled s (m * twoTo j) (e - j) = .finite s m e h := by
  unfold ofScaled
  split
  · exact assemble_mul_twoTo h hj s
  · exact nearest_mul_twoTo h hj (by omega) s

end Parts

end Binary64

end ErrorFree
