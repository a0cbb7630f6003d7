import ErrorFree.Decimal.Shortest
import ErrorFree.Proofs.Binary64.Nearest
import ErrorFree.Proofs.Number.Characters

/-!
# The shortest decimal reads back

**Values.**  `value` is the exact value of a decimal.  The binary number of a decimal is what its
value is rounded to (`toBinary64_eq_iff_rounds`), so that only the value matters.

**Search.**  The magnitude of a number lies between two neighbours on every grid
(`gridFloor_bounds`).  On the grid of seventeen digits the closer one lies so close that it is
rounded to the number (`onGrid_isSome`), so that the search has a hit (`rounds_firstHit`).

**Result.**  `rounds_shortest`: the shortest decimal, with the sign of a finite number, is rounded
to that number; `shortest_mod_ten`: it does not end with a zero.
-/

namespace ErrorFree

namespace Binary64

theorem denominator_pos (x : Binary64) : 0 < x.denominator := by
  cases x with
  | nan => exact Nat.one_pos
  | infinity s => exact Nat.one_pos
  | finite s m e h => exact twoTo_pos _

theorem numerator_eq_zero_iff {x : Binary64} (hx : x.isFinite = true) :
    x.numerator = 0 ↔ x.value = 0 := by
  have hden : (x.denominator : ℚ) ≠ 0 := by exact_mod_cast x.denominator_pos.ne'
  rw [← abs_eq_zero, abs_value_eq_div hx, div_eq_zero_iff, or_iff_left hden, Nat.cast_eq_zero]

end Binary64

namespace Decimal

open Binary64 (Rounds distance)

variable {x : Binary64} {d : Decimal}

section Values

/-- The exact value of a decimal. -/
def value (d : Decimal) : ℚ := d.digits * 10 ^ d.exponent

theorem value_eq_zero_iff : d.value = 0 ↔ d.digits = 0 := by
  have hpos : (10 : ℚ) ^ d.exponent ≠ 0 := by positivity
  rw [value, mul_eq_zero, or_iff_left hpos, Nat.cast_eq_zero]

/-- A ratio moved by a power of ten, up or down. -/
theorem ten_scaled_ratio (n d : Nat) (p : Int) :
    ((n * Nat.pow 10 (-p).toNat : Nat) : ℚ) / ((d * Nat.pow 10 p.toNat : Nat) : ℚ) =
      n / d / 10 ^ p := by
  have hpow : ∀ k : Nat, ((Nat.pow 10 k : Nat) : ℚ) = 10 ^ k := Nat.cast_pow 10
  rw [Nat.cast_mul, Nat.cast_mul, hpow, hpow]
  rcases le_total 0 p with hp | hp
  · obtain ⟨k, rfl⟩ := Int.eq_ofNat_of_zero_le hp
    have hzero : (-(k : Int)).toNat = 0 := by omega
    rw [hzero, Int.toNat_natCast, zpow_natCast, pow_zero, mul_one, div_div]
  · obtain ⟨k, hk⟩ := Int.eq_ofNat_of_zero_le (Int.neg_nonneg_of_nonpos hp)
    obtain rfl : p = -(k : Int) := by omega
    have hzero : (-(k : Int)).toNat = 0 := by omega
    rw [hzero, neg_neg, Int.toNat_natCast, zpow_neg, zpow_natCast, div_inv_eq_mul, pow_zero,
      mul_one, mul_div_right_comm]

/-- **A decimal is rounded correctly.** -/
theorem toBinary64_eq_iff_rounds {s : Bool} (hx : x.isFinite = true) (d : Decimal) :
    d.toBinary64 s = x ↔ Rounds s d.value x := by
  have hne : Nat.pow 10 (-d.exponent).toNat ≠ 0 := (Nat.pow_pos (by decide)).ne'
  have hratio := ten_scaled_ratio d.digits 1 (-d.exponent)
  rw [neg_neg, Nat.one_mul, Nat.cast_one, div_one, zpow_neg, div_inv_eq_mul] at hratio
  rw [toBinary64, Binary64.nearest_eq_iff_rounds hx _ hne, hratio, zpow_natCast,
    mul_div_cancel_right₀ _ (by positivity)]
  rfl

theorem readsBack_iff (hx : x.isFinite = true) (d : Decimal) :
    readsBack x d = true ↔ Rounds x.isNegative d.value x := by
  rw [readsBack, decide_eq_true_iff, toBinary64_eq_iff_rounds hx]

end Values

section Grid

/-- The neighbours of a magnitude on a grid. -/
theorem gridFloor_bounds (hx : x.isFinite = true) (p : Int) :
    gridFloor x p * 10 ^ p ≤ |x.value| ∧ |x.value| < (gridFloor x p + 1) * 10 ^ p := by
  have hpos : (0 : ℚ) < 10 ^ p := by positivity
  have hfloor : gridFloor x p = ⌊|x.value| / 10 ^ p⌋₊ := by
    rw [Binary64.abs_value_eq_div hx, ← ten_scaled_ratio, Nat.floor_div_eq_div]
    rfl
  rw [← le_div_iff₀ hpos, ← div_lt_iff₀ hpos, hfloor]
  exact ⟨Nat.floor_le (by positivity), Nat.lt_floor_add_one _⟩

/-- The closer neighbour on a grid lies at most half a step away. -/
theorem exists_neighbour (hx : x.isFinite = true) (p : Int) :
    ∃ n, (n = gridFloor x p ∨ n = gridFloor x p + 1) ∧
      distance (value ⟨n, p⟩) x ≤ 10 ^ p / 2 := by
  obtain ⟨hlow, hhigh⟩ := gridFloor_bounds hx p
  rcases le_total (|x.value| - gridFloor x p * 10 ^ p) (10 ^ p / 2) with hle | hge
  · refine ⟨_, Or.inl rfl, ?_⟩
    rw [distance, value, abs_of_nonpos (by linarith)]
    linarith
  · refine ⟨_, Or.inr rfl, ?_⟩
    rw [distance, value]
    push_cast
    rw [abs_of_nonneg (by linarith)]
    linarith

/-- A grid that is fine enough for the size of a number has a hit. -/
theorem exists_readsBack {p : Int} (hx : x.isFinite = true) (h : 10 ^ (p + 16) ≤ |x.value|) :
    readsBack x ⟨gridFloor x p, p⟩ = true ∨ readsBack x ⟨gridFloor x p + 1, p⟩ = true := by
  obtain ⟨n, hn, hdistance⟩ := exists_neighbour hx p
  have hpos : (0 : ℚ) < 10 ^ p := by positivity
  have hclose : distance (value ⟨n, p⟩) x * 2 ^ 54 < |x.value| := by
    rw [zpow_add₀ (by norm_num)] at h
    calc distance (value ⟨n, p⟩) x * 2 ^ 54 ≤ 10 ^ p / 2 * 2 ^ 54 := by gcongr
      _ = 10 ^ p * 2 ^ 53 := by ring
      _ < 10 ^ p * 10 ^ 16 := by gcongr; norm_num
      _ ≤ |x.value| := h
  have hreads := (readsBack_iff hx ⟨n, p⟩).mpr (Binary64.rounds_of_close hx hclose)
  rcases hn with rfl | rfl
  · left
    exact hreads
  · right
    exact hreads

/-- What is found on a grid reads back. -/
theorem rounds_onGrid {tie : Tie} {p : Int} (hx : x.isFinite = true)
    (h : onGrid tie x p = some d) : Rounds x.isNegative d.value x := by
  rw [← readsBack_iff hx]
  unfold onGrid at h
  dsimp only at h
  split at h
  · rename_i hlower _
    cases h
    exact hlower
  · rename_i _ hupper
    cases h
    exact hupper
  · cases h
  · rename_i hlower hupper
    split at h
    · cases h
      exact hlower
    · cases h
      exact hupper
    · cases h
      exact hupper
    · cases h
      rcases Nat.mod_two_eq_zero_or_one (gridFloor x p) with heven | hodd
      · rw [heven]
        exact hlower
      · rw [hodd]
        exact hupper

theorem onGrid_isSome {tie : Tie} {p : Int}
    (h : readsBack x ⟨gridFloor x p, p⟩ = true ∨ readsBack x ⟨gridFloor x p + 1, p⟩ = true) :
    ∃ d, onGrid tie x p = some d := by
  unfold onGrid
  dsimp only
  split
  · exact ⟨_, rfl⟩
  · exact ⟨_, rfl⟩
  · rename_i hlower hupper
    rw [hlower, hupper] at h
    simp at h
  · split <;> exact ⟨_, rfl⟩

end Grid

section Search

theorem lt_pow_length_toDigits (n : Nat) : n < 10 ^ (Nat.toDigits 10 n).length :=
  (Nat.length_toDigits_le_iff (by decide) Nat.length_toDigits_pos).mp (Nat.le_refl _)

theorem pow_length_toDigits_le {n : Nat} (hne : n ≠ 0) :
    10 ^ ((Nat.toDigits 10 n).length - 1) ≤ n := by
  by_contra hlt
  rcases Nat.eq_zero_or_pos ((Nat.toDigits 10 n).length - 1) with hzero | hpos
  · rw [hzero, Nat.pow_zero] at hlt
    omega
  · have hlength := (Nat.length_toDigits_le_iff (by decide) hpos).mpr (Nat.not_le.mp hlt)
    omega

/-- The leading exponent of a number is not above its magnitude. -/
theorem leadingExponentOf_le (hx : x.isFinite = true) (hne : x.numerator ≠ 0) :
    (10 : ℚ) ^ leadingExponentOf x ≤ |x.value| := by
  have hden : 0 < x.denominator := Binary64.denominator_pos x
  have hcast : (0 : ℚ) < x.denominator := by exact_mod_cast hden
  have hpos : ∀ n : Nat, 0 < (Nat.toDigits 10 n).length := fun _ => Nat.length_toDigits_pos
  -- A negative exponent is compared in natural numbers.
  have hbelow : ∀ k : Nat, x.denominator ≤ x.numerator * 10 ^ k →
      (10 : ℚ) ^ (-(k : Int)) ≤ |x.value| := by
    intro k hle
    rw [Binary64.abs_value_eq_div hx, zpow_neg, zpow_natCast, le_div_iff₀ hcast,
      inv_mul_le_iff₀ (by positivity), mul_comm]
    exact_mod_cast hle
  unfold leadingExponentOf
  dsimp only
  split
  · rename_i hwhole
    have hexponent : ((Nat.toDigits 10 (x.numerator / x.denominator)).length : Int) - 1 =
        ((Nat.toDigits 10 (x.numerator / x.denominator)).length - 1 : Nat) :=
      (Nat.cast_pred (hpos _)).symm
    rw [hexponent, zpow_natCast, Binary64.abs_value_eq_div hx, le_div_iff₀ hcast]
    exact_mod_cast (Nat.le_div_iff_mul_le hden).mp (pow_length_toDigits_le hwhole)
  · split
    · rename_i hle
      have hexponent : 1 - ((Nat.toDigits 10 (x.denominator / x.numerator)).length : Int) =
          -((Nat.toDigits 10 (x.denominator / x.numerator)).length - 1 : Nat) := by
        rw [Nat.cast_pred (hpos _), neg_sub]
      rw [hexponent]
      exact hbelow _ hle
    · apply hbelow
      have hlt := lt_pow_length_toDigits (x.denominator / x.numerator)
      rw [Nat.div_lt_iff_lt_mul (Nat.pos_of_ne_zero hne), Nat.mul_comm] at hlt
      exact hlt.le

/-- The search has a hit, if the last grid that it tries has one. -/
theorem rounds_firstHit {tie : Tie} (hx : x.isFinite = true) (more : Nat) (p : Int)
    (h : ∃ d, onGrid tie x (p - more) = some d) :
    Rounds x.isNegative (firstHit tie x p more).value x := by
  induction more generalizing p with
  | zero =>
      obtain ⟨d, hd⟩ := h
      rw [Nat.cast_zero, sub_zero] at hd
      rw [firstHit, hd]
      exact rounds_onGrid hx hd
  | succ more ih =>
      rw [firstHit]
      cases hgrid : onGrid tie x p with
      | some d => exact rounds_onGrid hx hgrid
      | none =>
          apply ih
          rw [sub_sub, add_comm, ← Nat.cast_succ]
          exact h

theorem value_trim (d : Decimal) : d.trim.value = d.value := by
  fun_induction trim d with
  | case1 d h ih =>
      have hdigits : (d.digits : ℚ) = (d.digits / 10 : Nat) * 10 := by
        exact_mod_cast (Nat.div_mul_cancel (Nat.dvd_of_mod_eq_zero h.2)).symm
      rw [ih, value, value, hdigits, zpow_add_one₀ (by norm_num)]
      ring
  | case2 d h => rfl

theorem trim_mod_ten (d : Decimal) (hne : d.digits ≠ 0) : d.trim.digits % 10 ≠ 0 := by
  fun_induction trim d with
  | case1 d h ih =>
      apply ih
      show d.digits / 10 ≠ 0
      omega
  | case2 d h => exact fun hzero => h ⟨hne, hzero⟩

/-- **The shortest decimal reads back.** -/
theorem rounds_shortest (tie : Tie) (hx : x.isFinite = true) :
    Rounds x.isNegative (shortest tie x).value x := by
  by_cases hzero : x.numerator = 0
  · obtain ⟨s, rfl⟩ := Binary64.eq_signedZero hx ((Binary64.numerator_eq_zero_iff hx).mp hzero)
    rw [shortest, if_pos hzero, ← toBinary64_eq_iff_rounds hx]
    rfl
  · rw [shortest, if_neg hzero, value_trim]
    apply rounds_firstHit hx
    apply onGrid_isSome
    apply exists_readsBack hx
    have hle := leadingExponentOf_le hx hzero
    rwa [Nat.cast_ofNat, sub_add_cancel]

/-- The shortest decimal of a number other than zero does not end with a zero. -/
theorem shortest_mod_ten (tie : Tie) (hx : x.isFinite = true) (hne : x.numerator ≠ 0) :
    (shortest tie x).digits % 10 ≠ 0 := by
  have hrounds := rounds_shortest tie hx
  rw [shortest, if_neg hne] at hrounds ⊢
  apply trim_mod_ten
  intro hdigits
  -- The value zero is rounded to a zero.
  rw [value_trim, value_eq_zero_iff.mpr hdigits] at hrounds
  have hclosest := hrounds.closest Binary64.zero rfl
  rw [distance, distance, Binary64.value_zero, abs_zero, sub_zero, abs_zero, zero_sub, abs_neg,
    abs_abs] at hclosest
  rw [Ne, Binary64.numerator_eq_zero_iff hx] at hne
  exact hne (abs_nonpos_iff.mp hclosest)

end Search

end Decimal

end ErrorFree
