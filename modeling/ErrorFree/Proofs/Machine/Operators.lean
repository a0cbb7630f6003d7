import ErrorFree.Machine.Step
import ErrorFree.Proofs.Binary64.Root

/-!
# What the operators compute

**Table.**  `BinaryOp.Computes` and `UnaryOp.Computes` say by the exact values of finite operands
which results an operator may have.  Sums, differences, products and quotients are rounded once,
roots are the closest numbers; remainders, magnitudes and whole numbers are exact, and comparisons
are decided by the values.  A division by zero gives an infinity or not-a-number.  Powers and
logarithms are those of the platform.  The sign of a result of zero is left open.

**Remainder.**  The remainder of a division that truncates has no more bits than the operand with
the lower exponent, so nothing is rounded (`remainder_rem`).

**Results.**  `BinaryOp.computes_apply`, `UnaryOp.computes_apply`: on finite operands every operator
has a result of the table.
-/

namespace ErrorFree

namespace Binary64

section Remainders

/-- The number `r` is the exact remainder of a division of `x` by `y` that truncates. -/
structure Remainder (x y : ℚ) (r : Binary64) : Prop where
  isFinite : r.isFinite = true
  quotient : ∃ k : Int, x = k * y + r.value
  smaller : |r.value| < |y|
  sameSign : 0 ≤ x * r.value

variable {m n e f : Nat}

/-- A significand of 53 bits is not rounded, whatever its exponent is. -/
theorem value_ofScaled_of_lt {k : Nat} (s : Bool) (hn : n < 2 ^ 53)
    (hk : n * 2 ^ k < 2 ^ 53 * 2 ^ 2045) :
    (ofScaled s n k).isFinite = true ∧
      (ofScaled s n k).value = (signed s n : Int) * (2 ^ k / 2 ^ oneExponent) := by
  have hassemble : ofScaled s n k = assemble s n k := if_pos (twoTo_eq_pow 53 ▸ hn)
  have hfinite : (assemble s n k).isFinite = true := (isFinite_assemble_iff s hn.le).mpr hk
  rw [hassemble]
  refine ⟨hfinite, ?_⟩
  rw [value_assemble hfinite]
  ring

/-- The remainder of two aligned magnitudes fits in the significand of the lower exponent. -/
theorem mod_aligned_lt (h : Canonical m e) (h' : Canonical n f) (hn : n ≠ 0) :
    m * twoTo (e - f) % (n * twoTo (f - e)) < 2 ^ 53 ∧
      m * twoTo (e - f) % (n * twoTo (f - e)) * 2 ^ min e f < 2 ^ 53 * 2 ^ 2045 := by
  have hbits : twoTo 53 = 2 ^ 53 := twoTo_eq_pow 53
  have hbound : ∀ {c g j : Nat}, Canonical c g → j ≤ c → j * 2 ^ g < 2 ^ 53 * 2 ^ 2045 := by
    intro c g j hc hj
    have hlt := magnitude_lt hc
    rw [twoTo_add, twoTo_eq_pow, twoTo_eq_pow, twoTo_eq_pow] at hlt
    exact (Nat.mul_le_mul_right _ hj).trans_lt hlt
  rcases Nat.le_total e f with hle | hge
  · rw [Nat.sub_eq_zero_of_le hle, twoTo_zero, Nat.mul_one, Nat.min_eq_left hle]
    have hmod := Nat.mod_le m (n * twoTo (f - e))
    exact ⟨hbits ▸ hmod.trans_lt h.1, hbound h hmod⟩
  · rw [Nat.sub_eq_zero_of_le hge, twoTo_zero, Nat.mul_one, Nat.min_eq_right hge]
    have hmod := Nat.mod_lt (m * twoTo (e - f)) (Nat.pos_of_ne_zero hn)
    exact ⟨hbits ▸ hmod.trans h'.1, hbound h' hmod.le⟩

/-- A magnitude and its remainder, with signs. -/
theorem signed_eq_mul_add_mod (s t : Bool) (m n : Nat) :
    signed s m = signed (s ^^ t) (m / n) * signed t n + signed s (m % n) := by
  rw [← signed_xor_mul, Bool.xor_assoc, Bool.xor_self, Bool.xor_false]
  have hdivision := Nat.div_add_mod' m n
  unfold signed
  split <;> omega

/-- **The remainder of finite numbers is exact.** -/
theorem remainder_rem {a b : Binary64} (ha : a.isFinite = true) (hb : b.isFinite = true)
    (hne : b.value ≠ 0) : Remainder a.value b.value (a.rem b) := by
  obtain ⟨s, m, e, h, rfl⟩ := exists_parts ha
  obtain ⟨t, n, f, h', rfl⟩ := exists_parts hb
  have hn : n ≠ 0 := fun hzero => hne ((value_eq_zero_iff h' t).mpr hzero)
  have hunit : (0 : ℚ) < 2 ^ min e f / 2 ^ oneExponent := by positivity
  obtain ⟨hsmall, hrange⟩ := mod_aligned_lt h h' hn
  obtain ⟨hfinite, hvalue⟩ := value_ofScaled_of_lt s hsmall hrange
  rw [value_aligned h s f, value_aligned h' t e, min_comm f e, rem, if_neg hn]
  refine ⟨hfinite, ⟨signed (s ^^ t) (m * twoTo (e - f) / (n * twoTo (f - e))), ?_⟩, ?_, ?_⟩
  · rw [hvalue, ← mul_assoc, ← add_mul, ← Int.cast_mul, ← Int.cast_add, ← signed_eq_mul_add_mod]
  · have hlt : m * twoTo (e - f) % (n * twoTo (f - e)) < n * twoTo (f - e) :=
      Nat.mod_lt _ (Nat.mul_pos (Nat.pos_of_ne_zero hn) (twoTo_pos _))
    rw [hvalue, abs_mul, abs_mul, abs_cast_signed, abs_cast_signed]
    exact mul_lt_mul_of_pos_right (by exact_mod_cast hlt) (abs_pos.mpr hunit.ne')
  · rw [hvalue, mul_mul_mul_comm, ← Int.cast_mul, ← signed_xor_mul, Bool.xor_self]
    exact mul_nonneg (Int.cast_nonneg (Int.natCast_nonneg _)) (mul_self_nonneg _)

end Remainders

section Comparisons

variable {a b x : Binary64}

theorem truth_equal (ha : a.isFinite = true) (hb : b.isFinite = true) :
    Number.truth (a.equal b) = if a.value = b.value then one else zero := by
  rw [Number.truth]
  exact if_congr (equal_iff_value_eq ha hb) rfl rfl

theorem truth_less (ha : a.isFinite = true) (hb : b.isFinite = true) :
    Number.truth (a.less b) = if a.value < b.value then one else zero := by
  rw [Number.truth]
  exact if_congr (less_iff_value_lt ha hb) rfl rfl

theorem less_zero_iff (hx : x.isFinite = true) : x.less zero = true ↔ x.value < 0 := by
  rw [less_iff_value_lt hx rfl, value_zero]

theorem zero_less_iff (hx : x.isFinite = true) : zero.less x = true ↔ 0 < x.value := by
  rw [less_iff_value_lt rfl hx, value_zero]

theorem equal_zero_iff (hx : x.isFinite = true) : x.equal zero = true ↔ x.value = 0 := by
  rw [equal_iff_value_eq hx rfl, value_zero]

theorem sign_eq (hx : x.isFinite = true) :
    Number.sign x = if x.value < 0 then negOne else if 0 < x.value then one else zero := by
  rw [Number.sign, isNaN_of_isFinite hx, if_neg Bool.false_ne_true]
  exact if_congr (less_zero_iff hx) rfl (if_congr (zero_less_iff hx) rfl rfl)

/-- Division by zero, and by everything else. -/
theorem divide_eq (ha : a.isFinite = true) (hb : b.isFinite = true) :
    Number.divide a b =
      if b.value = 0 then
        if a.value = 0 then .nan else .infinity (decide (a.value < 0))
      else a.div b := by
  have hsign : (if a.less zero then infinity true else infinity false) =
      .infinity (decide (a.value < 0)) := by
    rw [if_congr (less_zero_iff ha) rfl rfl]
    split
    · rename_i hneg
      rw [decide_eq_true hneg]
    · rename_i hneg
      rw [decide_eq_false hneg]
  rw [Number.divide, hsign]
  exact if_congr (equal_zero_iff hb) (if_congr (equal_zero_iff ha) rfl rfl) rfl

end Comparisons

end Binary64

open Binary64

/-- The results `r` that a binary operator may have on finite operands `a` and `b`. -/
def BinaryOp.Computes (a b r : Binary64) : BinaryOp → Prop
  | .add => Rounded (a.value + b.value) r
  | .sub => Rounded (a.value - b.value) r
  | .mul => Rounded (a.value * b.value) r
  | .div =>
      if b.value = 0 then r = if a.value = 0 then .nan else .infinity (decide (a.value < 0))
      else Rounded (a.value / b.value) r
  | .rem => if b.value = 0 then r = .nan else Remainder a.value b.value r
  | .pow => r = ofFloat (a.toFloat.pow b.toFloat)
  | .equal => r = if a.value = b.value then one else zero
  | .greater => r = if b.value < a.value then one else zero
  | .less => r = if a.value < b.value then one else zero

/-- The results `r` that a unary operator may have on a finite operand `x`. -/
def UnaryOp.Computes (x r : Binary64) : UnaryOp → Prop
  | .abs => r.isFinite = true ∧ r.value = |x.value|
  | .sign => r = if x.value < 0 then negOne else if 0 < x.value then one else zero
  | .sqrt => if x.value < 0 then r = .nan else Closest (√(x.value : ℝ)) r
  | .log10 => r = if x.value < 0 then .nan else ofFloat x.toFloat.log10
  | .floor => r.isFinite = true ∧ r.value = ⌊x.value⌋
  | .ceil => r.isFinite = true ∧ r.value = ⌈x.value⌉

/-- **On finite operands every binary operator has a result of the table.** -/
theorem BinaryOp.computes_apply {a b : Binary64} (ha : a.isFinite = true) (hb : b.isFinite = true)
    (op : BinaryOp) : op.Computes a b (op.apply a b) := by
  cases op with
  | add => exact rounded_add ha hb
  | sub => exact rounded_sub ha hb
  | mul => exact rounded_mul ha hb
  | div =>
      show if b.value = 0 then _ else _
      rw [BinaryOp.apply, divide_eq ha hb]
      split
      · rfl
      · rename_i hne
        exact rounded_div ha hb hne
  | rem =>
      show if b.value = 0 then _ else _
      split
      · rename_i hzero
        obtain ⟨s, m, e, h, rfl⟩ := exists_parts ha
        obtain ⟨t, n, f, h', rfl⟩ := exists_parts hb
        exact if_pos ((value_eq_zero_iff h' t).mp hzero)
      · rename_i hne
        exact remainder_rem ha hb hne
  | pow => rfl
  | equal => exact truth_equal ha hb
  | greater => exact truth_less hb ha
  | less => exact truth_less ha hb

/-- **On a finite operand every unary operator has a result of the table.** -/
theorem UnaryOp.computes_apply {x : Binary64} (hx : x.isFinite = true) (op : UnaryOp) :
    op.Computes x (op.apply x) := by
  cases op with
  | abs => exact ⟨(isFinite_abs x).trans hx, value_abs hx⟩
  | sign => exact sign_eq hx
  | sqrt =>
      show if x.value < 0 then _ else _
      rw [UnaryOp.apply, Number.sqrt, if_congr (less_zero_iff hx) rfl rfl]
      split
      · rfl
      · rename_i hnonneg
        exact closest_sqrt hx (not_lt.mp hnonneg)
  | log10 => exact if_congr (less_zero_iff hx) rfl rfl
  | floor => exact value_floor hx
  | ceil => exact value_ceil hx

/-- The remainder has the sign of the dividend and need not be the one closest to zero. -/
example : BinaryOp.rem.apply (ofInt (-5)) (ofInt 3) = ofInt (-2) := by decide

end ErrorFree
