import ErrorFree.Proofs.Binary64.Faithful

/-!
# Correct rounding

**Rule.**  `Rounds` says what it means that an exact magnitude is rounded to a number: no number is
closer, of two that are equally close it is the one whose last bit is zero, and the magnitude lies
below the middle between the greatest number and the next power of two, from which on it would be
rounded to an infinity.

**Results.**
* `Rounds.unique`: a magnitude is rounded to one number only.
* `nearest_eq_iff_rounds`: `nearest` rounds correctly.
* `abs_value_le_mul_abs_sub`: two numbers lie apart by at least a certain part of their size, so
  that a value close to a number is rounded to it (`rounds_of_close`).
-/

namespace ErrorFree

namespace Binary64

section Halves

variable {n d a : Nat}

/-- A ratio lies at most one half from the whole number that it is rounded to, and exactly one half
only if that number is even. -/
theorem roundHalfEven_half (n : Nat) (hd : 0 < d) :
    |(n : ℚ) / d - roundHalfEven n d| ≤ 1 / 2 ∧
      (|(n : ℚ) / d - roundHalfEven n d| = 1 / 2 → roundHalfEven n d % 2 = 0) := by
  have hcast : (0 : ℚ) < d := by exact_mod_cast hd
  have hdiv : (d : ℚ) * (n / d : Nat) + (n % d : Nat) = n := by
    exact_mod_cast Nat.div_add_mod n d
  obtain ⟨x, hx⟩ : ∃ x : ℚ, x = (n % d : Nat) / d := ⟨_, rfl⟩
  have hratio : (n : ℚ) / d = (n / d : Nat) + x := by
    rw [hx, ← hdiv]
    field_simp
  have hlow : 0 ≤ x := by
    rw [hx]
    positivity
  have hhigh : x < 1 := by
    rw [hx, div_lt_one hcast]
    exact_mod_cast Nat.mod_lt n hd
  have hbelow : 2 * (n % d) < d ↔ x < 1 / 2 := by
    rw [hx, div_lt_div_iff₀ hcast two_pos, one_mul, mul_comm]
    exact_mod_cast Iff.rfl
  have habove : d < 2 * (n % d) ↔ 1 / 2 < x := by
    rw [hx, div_lt_div_iff₀ two_pos hcast, one_mul, mul_comm]
    exact_mod_cast Iff.rfl
  rw [hratio]
  unfold roundHalfEven
  dsimp only
  split
  · rename_i hlt
    have hlt' := hbelow.mp hlt
    rw [add_sub_cancel_left, abs_of_nonneg hlow]
    exact ⟨hlt'.le, fun heq => absurd heq hlt'.ne⟩
  · rename_i hge
    split
    · rename_i hgt
      have hgt' := habove.mp hgt
      have hdist : |((n / d : Nat) : ℚ) + x - (n / d + 1 : Nat)| = 1 - x := by
        rw [abs_of_nonpos] <;> push_cast <;> linarith
      rw [hdist]
      constructor
      · linarith
      · intro heq
        linarith
    · rename_i hle
      have hhalf : x = 1 / 2 :=
        le_antisymm (not_lt.mp fun h => hle (habove.mpr h)) (not_lt.mp fun h => hge (hbelow.mpr h))
      refine ⟨?_, fun _ => by omega⟩
      rcases Nat.mod_two_eq_zero_or_one (n / d) with heven | hodd
      · rw [heven, Nat.add_zero, add_sub_cancel_left, hhalf, abs_of_pos one_half_pos]
      · rw [hodd, hhalf, abs_le]
        constructor <;> push_cast <;> linarith

/-- Two different whole numbers lie at least one apart. -/
theorem one_le_abs_sub {q : Nat} (h : a ≠ q) : (1 : ℚ) ≤ |(a : ℚ) - q| := by
  have hint : (1 : Int) ≤ |(a : Int) - q| := Int.one_le_abs (by omega)
  exact_mod_cast hint

/-- No whole number is closer to `x` than `q`, and another one that is as close leaves `q` even. -/
def ClosestWhole (x : ℚ) (q : Nat) : Prop :=
  ∀ a : Nat, |x - q| ≤ |x - a| ∧ (a ≠ q → |x - a| = |x - q| → q % 2 = 0)

theorem closestWhole_roundHalfEven (n : Nat) (hd : 0 < d) :
    ClosestWhole (n / d) (roundHalfEven n d) := by
  intro a
  obtain ⟨hhalf, heven⟩ := roundHalfEven_half n hd
  generalize roundHalfEven n d = q at hhalf heven ⊢
  rcases eq_or_ne a q with rfl | hne
  · exact ⟨le_rfl, fun h => absurd rfl h⟩
  · have hapart := one_le_abs_sub hne
    have htriangle : |(a : ℚ) - q| ≤ |(n : ℚ) / d - a| + |(n : ℚ) / d - q| := by
      rw [abs_sub_comm ((n : ℚ) / d) a]
      exact abs_sub_le _ _ _
    refine ⟨by linarith, fun _ heq => heven ?_⟩
    linarith

/-- Among the magnitudes `c · 2 ^ f` of at most 53 bits none is closer to a value than its closest
multiple of `2 ^ e`, if the value has 53 bits above `e` or `e` is the lowest exponent; and another
one that is as close leaves the multiple even. -/
theorem ClosestWhole.scaled {x : ℚ} {q e : Nat} (h : ClosestWhole x q)
    (hbits : e = 0 ∨ (2 : ℚ) ^ 52 ≤ x) {c : Nat} (hc : c < 2 ^ 53) (f : Nat) :
    |x * 2 ^ e - q * 2 ^ e| ≤ |x * 2 ^ e - c * 2 ^ f| ∧
      ((c : ℚ) * 2 ^ f ≠ q * 2 ^ e → |x * 2 ^ e - c * 2 ^ f| = |x * 2 ^ e - q * 2 ^ e| →
        q % 2 = 0) := by
  have hpos : (0 : ℚ) < 2 ^ e := by positivity
  have hscale : ∀ a : ℚ, |x * 2 ^ e - a * 2 ^ e| = |x - a| * 2 ^ e := by
    intro a
    rw [← sub_mul, abs_mul, abs_of_pos hpos]
  rcases Nat.lt_or_ge f e with hlt | hge
  · -- A magnitude of a lower exponent lies below `2 ^ 52 * 2 ^ e`, which is closer.
    have hbits := hbits.resolve_left (by omega)
    have hsmall : (c : ℚ) * 2 ^ f < 2 ^ 52 * 2 ^ e := by
      have hcast : (c : ℚ) < 2 ^ 53 := by exact_mod_cast hc
      calc (c : ℚ) * 2 ^ f < 2 ^ 53 * 2 ^ f := by gcongr
        _ = 2 ^ 52 * 2 ^ (f + 1) := by ring
        _ ≤ 2 ^ 52 * 2 ^ e :=
            mul_le_mul_of_nonneg_left (pow_le_pow_right₀ one_le_two hlt) (by positivity)
    have hle : (2 : ℚ) ^ 52 * 2 ^ e ≤ x * 2 ^ e := by gcongr
    have hclosest : |x - q| ≤ |x - 2 ^ 52| := by exact_mod_cast (h (2 ^ 52)).1
    have hstrict : |x * 2 ^ e - q * 2 ^ e| < |x * 2 ^ e - c * 2 ^ f| := by
      calc |x * 2 ^ e - q * 2 ^ e| = |x - q| * 2 ^ e := hscale q
        _ ≤ |x - 2 ^ 52| * 2 ^ e := by gcongr
        _ = x * 2 ^ e - 2 ^ 52 * 2 ^ e := by rw [← hscale, abs_of_nonneg (by linarith)]
        _ < x * 2 ^ e - c * 2 ^ f := by linarith
        _ ≤ |x * 2 ^ e - c * 2 ^ f| := le_abs_self _
    exact ⟨hstrict.le, fun _ heq => absurd heq hstrict.ne'⟩
  · have hmultiple : (c : ℚ) * 2 ^ f = ((c * 2 ^ (f - e) : Nat) : ℚ) * 2 ^ e := by
      push_cast
      rw [mul_assoc, ← pow_add, Nat.sub_add_cancel hge]
    obtain ⟨hclosest, heven⟩ := h (c * 2 ^ (f - e))
    rw [hmultiple, hscale, hscale]
    constructor
    · gcongr
    · intro hne heq
      apply heven
      · rintro hsame
        rw [hsame] at hne
        exact hne rfl
      · exact mul_right_cancel₀ hpos.ne' heq

end Halves

section Range

variable {x : ℚ} {m q e : Nat}

theorem twoTo_eq_pow (k : Nat) : twoTo k = 2 ^ k := twoTo_eq k

/-- A number is less than the power of two after the greatest one. -/
theorem magnitude_lt_of_isFinite {x : Binary64} (hx : x.isFinite = true) :
    x.magnitude < twoTo (53 + 2045) := by
  obtain ⟨s, m, e, h, rfl⟩ := exists_parts hx
  rw [magnitude, ← twoTo_eq]
  exact magnitude_lt h

theorem isFinite_assemble_iff (s : Bool) (hm : m ≤ 2 ^ 53) :
    (assemble s m e).isFinite = true ↔ m * 2 ^ e < 2 ^ 53 * 2 ^ 2045 := by
  rw [← twoTo_eq_pow, ← twoTo_eq_pow, ← twoTo_eq_pow, ← twoTo_add]
  refine ⟨fun h => ?_, isFinite_assemble s (twoTo_eq_pow 53 ▸ hm)⟩
  have hmagnitude := magnitude_assemble s m e h
  rw [← twoTo_eq] at hmagnitude
  rw [← hmagnitude]
  exact magnitude_lt_of_isFinite h

/-- Below an even whole number a value is rounded up to it from the middle on: the tie goes up, for
the whole number before is odd. -/
theorem ClosestWhole.lt_iff {c : Nat} (h : ClosestWhole x q) (hpos : 0 < c) (heven : c % 2 = 0)
    (hq : q ≤ c) (hx : x < c) : q < c ↔ x < c - 1 / 2 := by
  constructor
  · intro hlt
    by_contra hge
    have hq' : (q : ℚ) + 1 ≤ c := by exact_mod_cast hlt
    have hnear : |x - c| = c - x := by rw [abs_of_neg (by linarith), neg_sub]
    have hfar : |x - q| = x - q := abs_of_nonneg (by linarith)
    obtain ⟨hclosest, htie⟩ := h c
    rw [hnear, hfar] at hclosest htie
    have hnext : (q : ℚ) + 1 = c := by linarith
    have hodd := htie hlt.ne' (by linarith)
    have : q + 1 = c := by exact_mod_cast hnext
    omega
  · intro hlt
    by_contra hge
    obtain rfl : q = c := by omega
    have hclosest := (h (q - 1)).1
    rw [Nat.cast_pred hpos, abs_of_neg (by linarith : x - q < 0)] at hclosest
    rcases abs_cases (x - (q - 1)) with ⟨habs, -⟩ | ⟨habs, -⟩ <;> linarith

/-- With `t` as the greatest exponent, a value is rounded to one in range exactly if it lies below
the middle between the greatest number and the next power of two. -/
theorem ClosestWhole.inRange_iff (h : ClosestWhole x q) (hq : q ≤ 2 ^ 53) (hx : x < 2 ^ 53)
    (hbits : e = 0 ∨ (2 : ℚ) ^ 52 ≤ x ∧ 2 ^ 52 ≤ q) (t : Nat) :
    q * 2 ^ e < 2 ^ 53 * 2 ^ t ↔ x * 2 ^ e < (2 ^ 53 - 1 / 2) * 2 ^ t := by
  have htop : ((2 ^ 53 : Nat) : ℚ) = 2 ^ 53 := by norm_cast
  rcases Nat.lt_trichotomy e t with hlow | rfl | hhigh
  · have hpow : (2 : ℚ) ^ (e + 1) ≤ 2 ^ t := pow_le_pow_right₀ one_le_two hlow
    constructor
    · intro _
      calc x * 2 ^ e < 2 ^ 53 * 2 ^ e := by gcongr
        _ = 2 ^ 52 * 2 ^ (e + 1) := by ring
        _ ≤ (2 ^ 53 - 1 / 2) * 2 ^ t := mul_le_mul (by norm_num) hpow (by positivity) (by norm_num)
    · intro _
      have hlt : 2 ^ e < 2 ^ t := Nat.pow_lt_pow_right Nat.one_lt_two hlow
      exact Nat.mul_lt_mul_of_le_of_lt hq hlt (Nat.two_pow_pos 53)
  · rw [Nat.mul_lt_mul_right (Nat.two_pow_pos e), mul_lt_mul_iff_left₀ (by positivity), ← htop]
    exact h.lt_iff (Nat.two_pow_pos 53) rfl hq (by rwa [htop])
  · -- Such a value is at least the next power of two, and stays so.
    obtain ⟨hx', hq'⟩ := hbits.resolve_left (by omega)
    have hnat : 2 ^ 53 * 2 ^ t ≤ q * 2 ^ e := by
      calc 2 ^ 53 * 2 ^ t = 2 ^ 52 * 2 ^ (t + 1) := by ring
        _ ≤ q * 2 ^ e := Nat.mul_le_mul hq' (Nat.pow_le_pow_right Nat.two_pos hhigh)
    have hrat : (2 : ℚ) ^ 53 * 2 ^ t ≤ x * 2 ^ e := by
      calc (2 : ℚ) ^ 53 * 2 ^ t = 2 ^ 52 * 2 ^ (t + 1) := by ring
        _ ≤ x * 2 ^ e :=
            mul_le_mul hx' (pow_le_pow_right₀ one_le_two hhigh) (by positivity) (by linarith)
    have hbelow : ((2 : ℚ) ^ 53 - 1 / 2) * 2 ^ t < 2 ^ 53 * 2 ^ t := by
      gcongr
      norm_num
    exact ⟨fun hlt => absurd hlt (Nat.not_lt.mpr hnat),
      fun hlt => absurd (hlt.trans hbelow) (not_lt.mpr hrat)⟩

end Range

section Rounds

variable {v : ℚ} {x y : Binary64} {s : Bool}

/-- The last of the 53 bits of a number is zero; at the lowest exponent there are fewer bits. -/
def IsEven (x : Binary64) : Prop :=
  ∃ q e : Nat, q % 2 = 0 ∧ q < 2 ^ 53 ∧ (e = 0 ∨ 2 ^ 52 ≤ q) ∧ x.magnitude = q * 2 ^ e

/-- The middle between the greatest number, `2 ^ 1024 - 2 ^ 971`, and the next power of two. -/
def overflow : ℚ := 2 ^ 1024 - 2 ^ 970

/-- How far a number is from the magnitude `v`, its sign left out. -/
def distance (v : ℚ) (x : Binary64) : ℚ := |v - (|x.value|)|

/-- The magnitude `v` with a sign is rounded to the nearest number `x`, ties to even. -/
structure Rounds (negative : Bool) (v : ℚ) (x : Binary64) : Prop where
  isFinite : x.isFinite = true
  isNegative : x.isNegative = negative
  closest : ∀ y : Binary64, y.isFinite = true → distance v x ≤ distance v y
  even : ∀ y : Binary64, y.isFinite = true → |y.value| ≠ |x.value| → distance v y = distance v x →
    IsEven x
  below : v < overflow

theorem overflow_eq : overflow = (2 ^ 53 - 1 / 2) * 2 ^ 2045 / 2 ^ oneExponent := by
  have hpow : ∀ i j : Nat,
      (2 : ℚ) ^ (i + 54) - 2 ^ i = (2 ^ 53 - 1 / 2) * 2 ^ (i + 1 + j) / 2 ^ j := by
    intro i j
    field_simp
    ring
  exact hpow 970 oneExponent

theorem abs_value (x : Binary64) : |x.value| = x.magnitude / 2 ^ oneExponent := by
  have habs : |(x.units : ℚ)| = x.magnitude := by
    rw [units]
    split <;> simp
  rw [value, abs_div, habs, abs_of_pos (by positivity : (0 : ℚ) < 2 ^ oneExponent)]

theorem abs_value_inj : |x.value| = |y.value| ↔ x.magnitude = y.magnitude := by
  rw [abs_value, abs_value, div_left_inj' (by positivity), Nat.cast_inj]

/-- Distances are compared in units. -/
theorem distance_div (w : ℚ) (x : Binary64) :
    distance (w / 2 ^ oneExponent) x = |w - x.magnitude| / 2 ^ oneExponent := by
  have hpos : (0 : ℚ) < 2 ^ oneExponent := by positivity
  rw [distance, abs_value, ← sub_div, abs_div, abs_of_pos hpos]

theorem eq_of_magnitude_eq (hx : x.isFinite = true) (hy : y.isFinite = true)
    (hsign : x.isNegative = y.isNegative) (h : x.magnitude = y.magnitude) : x = y := by
  obtain ⟨s, m, e, hm, rfl⟩ := exists_parts hx
  obtain ⟨t, n, f, hn, rfl⟩ := exists_parts hy
  obtain rfl : s = t := hsign
  rw [magnitude, magnitude, ← twoTo_eq, ← twoTo_eq] at h
  have hleft := assemble_mul_twoTo hm (Nat.le_refl e) s
  have hright := assemble_mul_twoTo hn (Nat.le_refl f) s
  rw [Nat.sub_self] at hleft hright
  rw [← hleft, ← hright, h]

/-- Between two even numbers there is another one. -/
theorem IsEven.exists_between (hx : IsEven x) (hy : IsEven y) (hfinite : y.isFinite = true)
    (hlt : x.magnitude < y.magnitude) :
    ∃ z : Binary64, z.isFinite = true ∧ x.magnitude < z.magnitude ∧ z.magnitude < y.magnitude := by
  obtain ⟨q, e, hq, hsmall, hbits, hmagnitude⟩ := hx
  obtain ⟨r, f, hr, hsmall', -, hmagnitude'⟩ := hy
  rcases Nat.lt_or_ge f e with hfe | hef
  · -- The one with the lower exponent would be smaller.
    have hle : r * 2 ^ f ≤ q * 2 ^ e := by
      calc r * 2 ^ f ≤ 2 ^ 53 * 2 ^ f := Nat.mul_le_mul_right _ hsmall'.le
        _ = 2 ^ 52 * 2 ^ (f + 1) := by ring
        _ ≤ q * 2 ^ e := Nat.mul_le_mul (hbits.resolve_left (by omega))
            (Nat.pow_le_pow_right Nat.two_pos hfe)
    omega
  · obtain ⟨j, rfl⟩ := Nat.exists_eq_add_of_le hef
    have hmultiple : r * 2 ^ (e + j) = r * 2 ^ j * 2 ^ e := by ring
    have heven : r * 2 ^ j % 2 = 0 := by rw [Nat.mul_mod, hr, Nat.zero_mul]
    rw [hmagnitude, hmagnitude', hmultiple] at hlt
    have hgap : q + 1 < r * 2 ^ j := by
      have := Nat.lt_of_mul_lt_mul_right hlt
      omega
    have hbelow : (q + 1) * 2 ^ e < y.magnitude := by
      rw [hmagnitude', hmultiple]
      exact Nat.mul_lt_mul_of_pos_right hgap (Nat.two_pow_pos e)
    have hz : (assemble false (q + 1) e).isFinite = true := by
      apply isFinite_assemble
      · rw [twoTo_eq]
        exact hsmall
      · rw [twoTo_eq e]
        exact hbelow.trans (magnitude_lt_of_isFinite hfinite)
    have hvalue := magnitude_assemble false (q + 1) e hz
    refine ⟨_, hz, ?_, ?_⟩
    · rw [hvalue, hmagnitude]
      exact Nat.mul_lt_mul_of_pos_right (Nat.lt_succ_self q) (Nat.two_pow_pos e)
    · rw [hvalue]
      exact hbelow

theorem Rounds.not_lt (hx : Rounds s v x) (hy : Rounds s v y) : ¬ x.magnitude < y.magnitude := by
  intro hlt
  obtain ⟨w, rfl⟩ : ∃ w, v = w / 2 ^ oneExponent := ⟨v * 2 ^ oneExponent, by field_simp⟩
  have hpos : (0 : ℚ) < 2 ^ oneExponent := by positivity
  have hne : |x.value| ≠ |y.value| := fun h => hlt.ne (abs_value_inj.mp h)
  have htie := le_antisymm (hx.closest y hy.isFinite) (hy.closest x hx.isFinite)
  obtain ⟨z, hz, hxz, hzy⟩ := (hx.even y hy.isFinite hne.symm htie.symm).exists_between
    (hy.even x hx.isFinite hne htie) hy.isFinite hlt
  -- The value is the middle of the two, so that a number between them is closer.
  have hclosest := hx.closest z hz
  rw [distance_div, distance_div, div_left_inj' hpos.ne'] at htie
  rw [distance_div, distance_div, div_le_div_iff_of_pos_right hpos] at hclosest
  have hxz' : (x.magnitude : ℚ) < z.magnitude := by exact_mod_cast hxz
  have hzy' : (z.magnitude : ℚ) < y.magnitude := by exact_mod_cast hzy
  have hmiddle : w - x.magnitude = y.magnitude - w := by
    rcases abs_eq_abs.mp htie with h | h <;> linarith
  rw [abs_of_pos (by linarith)] at hclosest
  rcases abs_cases (w - z.magnitude) with ⟨habs, -⟩ | ⟨habs, -⟩ <;> linarith

/-- **A magnitude is rounded to one number only.** -/
theorem Rounds.unique (hx : Rounds s v x) (hy : Rounds s v y) : x = y := by
  apply eq_of_magnitude_eq hx.isFinite hy.isFinite
  · rw [hx.isNegative, hy.isNegative]
  · exact Nat.le_antisymm (Nat.not_lt.mp (hy.not_lt hx)) (Nat.not_lt.mp (hx.not_lt hy))

/-- A value that is rounded up is rounded to the next number. -/
theorem Rounds.le_of_le (h : Rounds s v x) (hx : v ≤ |x.value|) (hy : y.isFinite = true)
    (hle : v ≤ |y.value|) : |x.value| ≤ |y.value| := by
  have hup : ∀ z : Binary64, v ≤ |z.value| → distance v z = |z.value| - v := by
    intro z hz
    rw [distance, abs_sub_comm, abs_of_nonneg (sub_nonneg.mpr hz)]
  have hclosest := h.closest y hy
  rw [hup x hx, hup y hle] at hclosest
  linarith

end Rounds

section Nearest

variable {w : ℚ} {q e d : Nat} {s : Bool}

/-- An even significand gives an even number. -/
theorem isEven_assemble (heven : q % 2 = 0) (hq : q ≤ 2 ^ 53) (hbits : e = 0 ∨ 2 ^ 52 ≤ q)
    (hfinite : (assemble s q e).isFinite = true) : IsEven (assemble s q e) := by
  have hmagnitude : (assemble s q e).magnitude = q * 2 ^ e := magnitude_assemble s q e hfinite
  rcases Nat.lt_or_eq_of_le hq with hlt | rfl
  · exact ⟨q, e, heven, hlt, hbits, hmagnitude⟩
  · refine ⟨2 ^ 52, e + 1, rfl, by decide, Or.inr (Nat.le_refl _), ?_⟩
    rw [hmagnitude]
    ring

theorem exists_scaled_magnitude {y : Binary64} (hy : y.isFinite = true) :
    ∃ c f : Nat, c < 2 ^ 53 ∧ (y.magnitude : ℚ) = c * 2 ^ f := by
  obtain ⟨t, c, f, hc, rfl⟩ := exists_parts hy
  refine ⟨c, f, hc.1, ?_⟩
  rw [magnitude, ← twoTo_eq, Nat.cast_mul, cast_twoTo]

/-- The closest multiple of a power of two, where that keeps 53 bits, is what a value is rounded
to. -/
theorem ClosestWhole.rounds_assemble (h : ClosestWhole w q) (hq : q ≤ 2 ^ 53)
    (hbits : e = 0 ∨ (2 : ℚ) ^ 52 ≤ w ∧ 2 ^ 52 ≤ q)
    (hbelow : w * 2 ^ e / 2 ^ oneExponent < overflow)
    (hfinite : (assemble s q e).isFinite = true) :
    Rounds s (w * 2 ^ e / 2 ^ oneExponent) (assemble s q e) := by
  have hpos : (0 : ℚ) < 2 ^ oneExponent := by positivity
  have hlarge : e = 0 ∨ (2 : ℚ) ^ 52 ≤ w := hbits.imp_right And.left
  have hmagnitude : ((assemble s q e).magnitude : ℚ) = q * 2 ^ e := by
    rw [magnitude_assemble s q e hfinite, ← twoTo_eq, Nat.cast_mul, cast_twoTo]
  refine ⟨hfinite, isNegative_assemble s q e, ?_, ?_, hbelow⟩
  · intro y hy
    obtain ⟨c, f, hc, hy'⟩ := exists_scaled_magnitude hy
    rw [distance_div, distance_div, div_le_div_iff_of_pos_right hpos, hmagnitude, hy']
    exact (h.scaled hlarge hc f).1
  · intro y hy hne htie
    obtain ⟨c, f, hc, hy'⟩ := exists_scaled_magnitude hy
    rw [distance_div, distance_div, div_left_inj' hpos.ne', hmagnitude, hy'] at htie
    rw [abs_value, abs_value, hmagnitude, hy', Ne, div_left_inj' hpos.ne'] at hne
    exact isEven_assemble ((h.scaled hlarge hc f).2 hne htie) hq (hbits.imp_right And.right) hfinite

/-- What `nearest` assembles: the closest multiple of the power of two that keeps 53 bits. -/
theorem nearest_eq_assemble_closest (n : Nat) (hd : d ≠ 0) (k : Int) :
    ∃ (w : ℚ) (q e : Nat), (n : ℚ) / d * 2 ^ k = w * 2 ^ e ∧ ClosestWhole w q ∧ q ≤ 2 ^ 53 ∧
      w < 2 ^ 53 ∧ (e = 0 ∨ (2 : ℚ) ^ 52 ≤ w ∧ 2 ^ 52 ≤ q) ∧
      ∀ s, nearest s n d k = assemble s q e := by
  obtain ⟨num, den, e, hden, hvalue, hsmall, hbits, hnearest⟩ := nearest_eq_assemble n hd k
  have hcast : (0 : ℚ) < den := by exact_mod_cast hden
  refine ⟨num / den, roundHalfEven num den, e, hvalue, closestWhole_roundHalfEven num hden, ?_,
    hsmall, ?_, hnearest⟩
  · apply (roundHalfEven_bounds hden (2 ^ 53)).2
    rw [div_lt_iff₀ hcast] at hsmall
    exact_mod_cast hsmall.le
  · refine hbits.imp_right fun hlarge => ⟨hlarge, ?_⟩
    apply (roundHalfEven_bounds hden (2 ^ 52)).1
    rw [le_div_iff₀ hcast] at hlarge
    exact_mod_cast hlarge

/-- **Rounding is correct**: the finite results are those that the rule gives. -/
theorem nearest_eq_iff_rounds {x : Binary64} (hx : x.isFinite = true) (n : Nat) (hd : d ≠ 0)
    (k : Int) : nearest s n d k = x ↔ Rounds s (n / d * 2 ^ k / 2 ^ oneExponent) x := by
  obtain ⟨w, q, e, hvalue, hclosest, hq, hw, hbits, hnearest⟩ := nearest_eq_assemble_closest n hd k
  have hrange : (assemble s q e).isFinite = true ↔ w * 2 ^ e / 2 ^ oneExponent < overflow := by
    rw [isFinite_assemble_iff s hq, overflow_eq, div_lt_div_iff_of_pos_right (by positivity)]
    exact hclosest.inRange_iff hq hw hbits 2045
  rw [hnearest s, hvalue]
  constructor
  · rintro rfl
    exact hclosest.rounds_assemble hq hbits (hrange.mp hx) hx
  · intro h
    exact (hclosest.rounds_assemble hq hbits h.below (hrange.mpr h.below)).unique h

end Nearest

section Gaps

variable {v : ℚ} {x y : Binary64}

/-- Two different whole numbers lie apart by at least the part `1 / c` of the first, if one of them
is not above `c`. -/
theorem le_mul_abs_sub {a b c : Nat} (hne : a ≠ b) (hsmall : a ≤ c ∨ b < c) :
    (a : ℚ) ≤ c * |(a : ℚ) - b| := by
  have hapart := one_le_abs_sub hne
  rcases Nat.lt_or_ge c a with hgt | hle
  · have hb : (b : ℚ) + 1 ≤ c := by
      have : b + 1 ≤ c := by omega
      exact_mod_cast this
    have hc : (c : ℚ) ≤ a := by exact_mod_cast hgt.le
    rw [abs_of_nonneg (by linarith)]
    nlinarith [(Nat.cast_nonneg b : (0 : ℚ) ≤ b)]
  · have hle' : (a : ℚ) ≤ c := by exact_mod_cast hle
    calc (a : ℚ) ≤ c * 1 := by rwa [mul_one]
      _ ≤ c * |(a : ℚ) - b| := by gcongr

/-- Two numbers lie apart by at least a certain part of their size. -/
theorem abs_value_le_mul_abs_sub (hx : x.isFinite = true) (hy : y.isFinite = true)
    (hne : |y.value| ≠ |x.value|) : |x.value| ≤ 2 ^ 53 * distance (|y.value|) x := by
  have hpos : (0 : ℚ) < 2 ^ oneExponent := by positivity
  obtain ⟨s, m, e, hm, rfl⟩ := exists_parts hx
  obtain ⟨t, n, f, hn, rfl⟩ := exists_parts hy
  rw [Ne, abs_value_inj] at hne
  rw [abs_value, abs_value, distance_div, ← mul_div_assoc, div_le_div_iff_of_pos_right hpos,
    abs_sub_comm]
  -- Both are multiples of the power of two with the lower of their exponents.
  obtain ⟨a, ha⟩ : ∃ a, a = m * 2 ^ (e - f) := ⟨_, rfl⟩
  obtain ⟨b, hb⟩ : ∃ b, b = n * 2 ^ (f - e) := ⟨_, rfl⟩
  have hx' : (finite s m e hm).magnitude = a * 2 ^ min e f := by
    rw [magnitude, ha, Nat.mul_assoc, ← Nat.pow_add, Nat.sub_add_min_cancel]
    rfl
  have hy' : (finite t n f hn).magnitude = b * 2 ^ min e f := by
    rw [magnitude, hb, Nat.mul_assoc, ← Nat.pow_add, Nat.min_comm, Nat.sub_add_min_cancel]
    rfl
  have hsmall : a ≤ 2 ^ 53 ∨ b < 2 ^ 53 := by
    have hm' : m < 2 ^ 53 := hm.1
    have hn' : n < 2 ^ 53 := hn.1
    rcases Nat.le_total e f with hle | hge
    · left
      rw [ha, Nat.sub_eq_zero_of_le hle]
      omega
    · right
      rw [hb, Nat.sub_eq_zero_of_le hge]
      omega
  have hgap := le_mul_abs_sub (fun h => hne (by rw [hx', hy', h])) hsmall
  rw [Nat.cast_pow, Nat.cast_two] at hgap
  rw [hx', hy', Nat.cast_mul, Nat.cast_mul, Nat.cast_pow, Nat.cast_two, ← sub_mul, abs_mul,
    abs_of_pos (by positivity : (0 : ℚ) < 2 ^ min e f), ← mul_assoc]
  gcongr

/-- A number is at most the greatest one. -/
theorem magnitude_le {m e : Nat} (h : Canonical m e) :
    m * twoTo e ≤ (twoTo 53 - 1) * twoTo 2045 := by
  rcases Nat.le_total e 2045 with hle | hge
  · have hm : m ≤ twoTo 53 - 1 := Nat.le_sub_one_of_lt h.1
    exact Nat.mul_le_mul hm (twoTo_le_twoTo hle)
  · have hm : m * twoTo (e - 2045) ≤ twoTo 53 - 1 := by
      rcases h.2.1 with hle | hlt
      · obtain rfl : e = 2045 := by omega
        rw [Nat.sub_self, twoTo_zero, Nat.mul_one]
        exact Nat.le_sub_one_of_lt h.1
      · exact Nat.le_sub_one_of_lt hlt
    rw [← twoTo_sub_mul hge, ← Nat.mul_assoc]
    exact Nat.mul_le_mul_right _ hm

theorem abs_value_le (hx : x.isFinite = true) :
    |x.value| ≤ (2 ^ 53 - 1) * (2 ^ 2045 / 2 ^ oneExponent) := by
  obtain ⟨s, m, e, h, rfl⟩ := exists_parts hx
  have hle : ((m * twoTo e : Nat) : ℚ) ≤ (((twoTo 53 - 1) * twoTo 2045 : Nat) : ℚ) :=
    Nat.cast_le.mpr (magnitude_le h)
  rw [Nat.cast_mul (twoTo 53 - 1), Nat.cast_pred (twoTo_pos 53), cast_twoTo, cast_twoTo] at hle
  rw [abs_value, magnitude, ← twoTo_eq, ← mul_div_assoc,
    div_le_div_iff_of_pos_right (by positivity)]
  exact hle

/-- A value that lies close enough to a number is rounded to it. -/
theorem rounds_of_close (hx : x.isFinite = true) (h : distance v x * 2 ^ 54 < |x.value|) :
    Rounds x.isNegative v x := by
  have hcloser : ∀ y : Binary64, y.isFinite = true → |y.value| ≠ |x.value| →
      distance v x < distance v y := by
    intro y hy hne
    have hgap := abs_value_le_mul_abs_sub hx hy hne
    have htriangle : distance (|y.value|) x ≤ distance v y + distance v x := by
      rw [distance, distance, distance, abs_sub_comm v (|y.value|)]
      exact abs_sub_le _ _ _
    linarith
  refine ⟨hx, rfl, ?_, ?_, ?_⟩
  · intro y hy
    rcases eq_or_ne (|y.value|) (|x.value|) with heq | hne
    · rw [distance, distance, heq]
    · exact (hcloser y hy hne).le
  · intro y hy hne htie
    exact absurd htie (hcloser y hy hne).ne'
  · obtain ⟨unit, hunit⟩ : ∃ unit : ℚ, 2 ^ 2045 / 2 ^ oneExponent = unit := ⟨_, rfl⟩
    have hle : |x.value| ≤ (2 ^ 53 - 1) * unit := hunit ▸ abs_value_le hx
    have habove : v - |x.value| ≤ distance v x := le_abs_self _
    rw [overflow_eq, mul_div_assoc, hunit]
    have hpos : 0 < unit := by
      rw [← hunit]
      positivity
    linarith

end Gaps

end Binary64

end ErrorFree
