import ErrorFree.Proofs.Binary64.Value

/-!
# Faithful rounding

**Faithful.**  A result is faithful to an exact value when no number lies strictly between them: it
keeps every bound that is a number (`Faithful`).  So it is exact when it can be (`Faithful.exact`).

**Results.**
* `faithful_nearest`: `nearest` is faithful.
* `faithful_add`, `faithful_mul`, `faithful_div`: the operations are faithful to the exact
  operations.  A difference is a sum with a number negated.
-/

namespace ErrorFree

namespace Binary64

section Faithful

/-- The result keeps every bound of the exact value that is a number. -/
def Faithful (x : ℚ) (r : Binary64) : Prop :=
  ∀ a b, IsNumber a → IsNumber b → a ≤ x → x ≤ b → r.isFinite = true ∧ a ≤ r.value ∧ r.value ≤ b

theorem Faithful.neg {x : ℚ} {r : Binary64} (h : Faithful x r) : Faithful (-x) r.neg := by
  intro a b ha hb hax hxb
  obtain ⟨hfin, hlow, hhigh⟩ := h (-b) (-a) hb.neg ha.neg (by linarith) (by linarith)
  rw [isFinite_neg, value_neg]
  exact ⟨hfin, by linarith, by linarith⟩

/-- A faithful result is exact if the exact value is a number. -/
theorem Faithful.exact {x : ℚ} {r : Binary64} (h : Faithful x r) (hx : IsNumber x) :
    r.isFinite = true ∧ r.value = x := by
  obtain ⟨hfin, hlow, hhigh⟩ := h x x hx hx le_rfl le_rfl
  exact ⟨hfin, le_antisymm hhigh hlow⟩

end Faithful

section Ratios

theorem two_zpow_sub (i j : Nat) : (2 : ℚ) ^ ((i : Int) - j) = 2 ^ i / 2 ^ j := by
  rw [zpow_sub₀ two_ne_zero, zpow_natCast, zpow_natCast]

/-- A ratio moved by a power of two, up or down. -/
theorem scaled_ratio (n d : Nat) (p : Int) :
    ((n * twoTo (-p).toNat : Nat) : ℚ) / ((d * twoTo p.toNat : Nat) : ℚ) = n / d * 2 ^ (-p) := by
  rw [Nat.cast_mul, Nat.cast_mul, cast_twoTo, cast_twoTo]
  rcases le_total 0 p with hp | hp
  · obtain ⟨k, rfl⟩ := Int.eq_ofNat_of_zero_le hp
    have hzero : (-(k : Int)).toNat = 0 := by omega
    rw [hzero, Int.toNat_natCast, zpow_neg, zpow_natCast]
    field_simp
  · obtain ⟨k, hk⟩ := Int.eq_ofNat_of_zero_le (Int.neg_nonneg_of_nonpos hp)
    have hzero : p.toNat = 0 := by omega
    rw [hzero, hk, Int.toNat_natCast, zpow_natCast]
    field_simp

/-- The leading bit of a ratio is a power of two not above it, and the next one is above. -/
theorem leadingBit_bounds {n d : Nat} (hn : n ≠ 0) (hd : d ≠ 0) :
    (2 : ℚ) ^ leadingBit n d ≤ n / d ∧ (n : ℚ) / d < 2 ^ (leadingBit n d + 1) := by
  have hn₁ : (2 : ℚ) ^ n.log2 ≤ n := by exact_mod_cast Nat.log2_self_le hn
  have hn₂ : (n : ℚ) < 2 ^ (n.log2 + 1) := by exact_mod_cast Nat.lt_log2_self
  have hd₁ : (2 : ℚ) ^ d.log2 ≤ d := by exact_mod_cast Nat.log2_self_le hd
  have hd₂ : (d : ℚ) < 2 ^ (d.log2 + 1) := by exact_mod_cast Nat.lt_log2_self
  have hdpos : (0 : ℚ) < d := by exact_mod_cast Nat.pos_of_ne_zero hd
  unfold leadingBit
  generalize hp : (n.log2 : Int) - d.log2 = p
  have hlow : (2 : ℚ) ^ (p - 1) ≤ n / d := by
    have hexp : p - 1 = (n.log2 : Int) - (d.log2 + 1 : Nat) := by omega
    rw [hexp, two_zpow_sub]
    exact div_le_div₀ (by positivity) hn₁ hdpos hd₂.le
  have hhigh : (n : ℚ) / d < 2 ^ (p + 1) := by
    have hexp : p + 1 = ((n.log2 + 1 : Nat) : Int) - d.log2 := by omega
    rw [hexp, two_zpow_sub]
    exact div_lt_div₀ hn₂ hd₁ (by positivity) (by positivity)
  have hbelow : n * twoTo (-p).toNat < d * twoTo p.toNat ↔ (n : ℚ) / d < 2 ^ p := by
    have hpos : (0 : ℚ) < ((d * twoTo p.toNat : Nat) : ℚ) := by
      exact_mod_cast Nat.mul_pos (Nat.pos_of_ne_zero hd) (twoTo_pos _)
    rw [← Nat.cast_lt (α := ℚ), ← div_lt_one hpos, scaled_ratio, zpow_neg, ← div_eq_mul_inv,
      div_lt_one (by positivity)]
  dsimp only
  split
  · rename_i hlt
    rw [sub_add_cancel]
    exact ⟨hlow, hbelow.mp hlt⟩
  · rename_i hge
    exact ⟨not_lt.mp fun hlt => hge (hbelow.mpr hlt), hhigh⟩

/-- Rounding to a whole number keeps whole bounds. -/
theorem roundHalfEven_bounds {n d : Nat} (hd : 0 < d) (a : Nat) :
    (a * d ≤ n → a ≤ roundHalfEven n d) ∧ (n ≤ a * d → roundHalfEven n d ≤ a) := by
  have hdiv := Nat.div_add_mod n d
  rw [Nat.mul_comm] at hdiv
  have hlow : n / d ≤ roundHalfEven n d := by
    unfold roundHalfEven
    dsimp only
    split
    · exact Nat.le_refl _
    · split <;> omega
  have hhigh : roundHalfEven n d ≤ n / d ∨ (roundHalfEven n d ≤ n / d + 1 ∧ 0 < n % d) := by
    unfold roundHalfEven
    dsimp only
    split
    · exact Or.inl (Nat.le_refl _)
    · split <;> right <;> omega
  constructor
  · intro h
    exact Nat.le_trans ((Nat.le_div_iff_mul_le hd).mpr h) hlow
  · intro h
    have hle : n / d ≤ a := Nat.div_le_of_le_mul (by rwa [Nat.mul_comm])
    rcases hhigh with hround | ⟨hround, hrest⟩
    · omega
    · have hlt : n / d < a := by
        rcases Nat.lt_or_ge (n / d) a with hlt | hge
        · exact hlt
        · have := Nat.mul_le_mul_right d hge
          omega
      omega

end Ratios

section Nearest

/-- The magnitude `m · 2 ^ e` keeps every bound of `x` that is a magnitude of at most 53 bits. -/
def Keeps (x : ℚ) (m e : Nat) : Prop :=
  ∀ a f : Nat, a < twoTo 53 →
    ((a : ℚ) * 2 ^ f ≤ x → (a : ℚ) * 2 ^ f ≤ m * 2 ^ e) ∧
    (x ≤ (a : ℚ) * 2 ^ f → (m : ℚ) * 2 ^ e ≤ a * 2 ^ f)

/-- A multiple of `2 ^ e` next to `x` keeps its bounds, if `x` has at least 53 bits above `e`, or `e`
is the lowest exponent. -/
theorem keeps_of_next {x : ℚ} {m e : Nat} (hlow : ∀ a : Nat, a * 2 ^ e ≤ x → a ≤ m)
    (hhigh : ∀ a : Nat, x ≤ a * 2 ^ e → m ≤ a) (hbits : e = 0 ∨ (2 : ℚ) ^ 52 * 2 ^ e ≤ x) :
    Keeps x m e := by
  intro a f ha
  rcases Nat.lt_or_ge f e with hlt | hge
  · have hbits := hbits.resolve_left (by omega)
    have hm : (2 : ℚ) ^ 52 ≤ m := by
      exact_mod_cast hlow (2 ^ 52) (by exact_mod_cast hbits)
    have hsmall : (a : ℚ) * 2 ^ f < 2 ^ 52 * 2 ^ e := by
      have hcast : (a : ℚ) < 2 ^ 53 := by
        rw [← cast_twoTo]
        exact_mod_cast ha
      calc (a : ℚ) * 2 ^ f < 2 ^ 53 * 2 ^ f := by gcongr
        _ = 2 ^ 52 * 2 ^ (f + 1) := by ring
        _ ≤ 2 ^ 52 * 2 ^ e :=
            mul_le_mul_of_nonneg_left (pow_le_pow_right₀ one_le_two hlt) (by positivity)
    constructor
    · intro _
      calc (a : ℚ) * 2 ^ f ≤ 2 ^ 52 * 2 ^ e := hsmall.le
        _ ≤ m * 2 ^ e := by gcongr
    · intro h
      exact absurd h (not_le.mpr (lt_of_lt_of_le hsmall hbits))
  · have hpow : (a : ℚ) * 2 ^ f = ((a * 2 ^ (f - e) : Nat) : ℚ) * 2 ^ e := by
      push_cast
      rw [mul_assoc, ← pow_add, Nat.sub_add_cancel hge]
    have hpos : (0 : ℚ) < 2 ^ e := by positivity
    rw [hpow]
    constructor
    · intro h
      have hle := hlow _ h
      gcongr
    · intro h
      have hle := hhigh _ h
      gcongr

variable {d : Nat}

/-- Rounding takes a ratio, as a multiple of a power of two, to a whole multiple of that power.  The
multiple has 53 bits, or fewer at the lowest exponent. -/
theorem nearest_eq_assemble (n : Nat) (hd : d ≠ 0) (k : Int) :
    ∃ num den e : Nat, 0 < den ∧ (n : ℚ) / d * 2 ^ k = num / den * 2 ^ e ∧
      (num : ℚ) / den < 2 ^ 53 ∧ (e = 0 ∨ (2 : ℚ) ^ 52 ≤ num / den) ∧
      ∀ s, nearest s n d k = assemble s (roundHalfEven num den) e := by
  rcases eq_or_ne n 0 with rfl | hn
  · refine ⟨0, 1, 0, Nat.one_pos, by simp, by simp, Or.inl rfl, fun s => rfl⟩
  · obtain ⟨hlead, hlead'⟩ := leadingBit_bounds hn hd
    obtain ⟨e, he⟩ : ∃ e, (leadingBit n d + k - 52).toNat = e := ⟨_, rfl⟩
    have hpos : 0 < d * twoTo ((e : Int) - k).toNat :=
      Nat.mul_pos (Nat.pos_of_ne_zero hd) (twoTo_pos _)
    have hratio := scaled_ratio n d ((e : Int) - k)
    refine ⟨n * twoTo (-((e : Int) - k)).toNat, d * twoTo ((e : Int) - k).toNat, e, hpos, ?_, ?_,
      ?_, ?_⟩
    · rw [hratio, mul_assoc, ← zpow_natCast, ← zpow_add₀ two_ne_zero]
      congr 2
      omega
    · calc _ = (n : ℚ) / d * 2 ^ (-((e : Int) - k)) := hratio
        _ < 2 ^ (leadingBit n d + 1) * 2 ^ (-((e : Int) - k)) := by gcongr
        _ = 2 ^ (leadingBit n d + 1 + -((e : Int) - k)) := (zpow_add₀ two_ne_zero _ _).symm
        _ ≤ 2 ^ (53 : Int) := zpow_le_zpow_right₀ one_le_two (by omega)
        _ = 2 ^ 53 := zpow_natCast 2 53
    · rcases Nat.eq_zero_or_pos e with hzero | hpositive
      · left
        exact hzero
      · right
        calc (2 : ℚ) ^ 52 = 2 ^ (52 : Int) := (zpow_natCast 2 52).symm
          _ = 2 ^ (leadingBit n d + -((e : Int) - k)) := by
              congr 1
              omega
          _ = 2 ^ leadingBit n d * 2 ^ (-((e : Int) - k)) := zpow_add₀ two_ne_zero _ _
          _ ≤ n / d * 2 ^ (-((e : Int) - k)) := by gcongr
          _ = _ := hratio.symm
    · intro s
      rw [nearest, if_neg hn, he]

theorem nearest_keeps (n : Nat) (hd : d ≠ 0) (s : Bool) (k : Int) :
    ∃ m e, nearest s n d k = assemble s m e ∧ m ≤ twoTo 53 ∧ Keeps (n / d * 2 ^ k) m e := by
  obtain ⟨num, den, e, hpos, hx, hsmall, hbits, heq⟩ := nearest_eq_assemble n hd k
  have hcast : (0 : ℚ) < den := by exact_mod_cast hpos
  have hlow : ∀ a : Nat, (a : ℚ) * 2 ^ e ≤ n / d * 2 ^ k → a ≤ roundHalfEven num den := by
    intro a h
    rw [hx, mul_le_mul_iff_left₀ (by positivity), le_div_iff₀ hcast] at h
    exact (roundHalfEven_bounds hpos a).1 (by exact_mod_cast h)
  have hhigh : ∀ a : Nat, (n : ℚ) / d * 2 ^ k ≤ a * 2 ^ e → roundHalfEven num den ≤ a := by
    intro a h
    rw [hx, mul_le_mul_iff_left₀ (by positivity), div_le_iff₀ hcast] at h
    exact (roundHalfEven_bounds hpos a).2 (by exact_mod_cast h)
  refine ⟨roundHalfEven num den, e, heq s, ?_, keeps_of_next hlow hhigh ?_⟩
  · apply hhigh
    rw [hx, cast_twoTo]
    gcongr
  · rcases hbits with hzero | hbits
    · left
      exact hzero
    · right
      rw [hx]
      gcongr

theorem faithful_assemble {x : ℚ} {m e : Nat} (hx : 0 ≤ x) (hm : m ≤ twoTo 53)
    (hkeeps : Keeps x m e) : Faithful (x / 2 ^ oneExponent) (assemble false m e) := by
  have hone : (0 : ℚ) < 2 ^ oneExponent := by positivity
  rintro _ _ hlow hhigh hlx hxh
  obtain ⟨c, f, hc, -, rfl⟩ := hlow.exists_scaled
  obtain ⟨c', f', hc', hlt, rfl⟩ := hhigh.exists_scaled
  rw [div_le_div_iff_of_pos_right hone] at hlx hxh
  have hnonneg : 0 ≤ c' := by
    have hcast : (0 : ℚ) ≤ c' := nonneg_of_mul_nonneg_left (hx.trans hxh) (by positivity)
    exact_mod_cast hcast
  obtain ⟨a', rfl⟩ := Int.eq_ofNat_of_zero_le hnonneg
  rw [Int.natAbs_natCast] at hc' hlt
  rw [Int.cast_natCast] at hxh ⊢
  have hle := (hkeeps a' f' hc').2 hxh
  have hfinite : (assemble false m e).isFinite = true := by
    apply isFinite_assemble false hm
    refine lt_of_le_of_lt ?_ hlt
    rw [← cast_twoTo, ← cast_twoTo] at hle
    exact_mod_cast hle
  rw [value_assemble hfinite, div_le_div_iff_of_pos_right hone, div_le_div_iff_of_pos_right hone]
  refine ⟨hfinite, ?_, hle⟩
  show (c : ℚ) * 2 ^ f ≤ ((m : Int) : ℚ) * 2 ^ e
  rw [Int.cast_natCast]
  rcases le_total c 0 with hneg | hpos
  · have hcast : (c : ℚ) ≤ 0 := by exact_mod_cast hneg
    calc (c : ℚ) * 2 ^ f ≤ 0 := mul_nonpos_of_nonpos_of_nonneg hcast (pow_nonneg zero_le_two f)
      _ ≤ m * 2 ^ e := mul_nonneg m.cast_nonneg (pow_nonneg zero_le_two e)
  · obtain ⟨a, rfl⟩ := Int.eq_ofNat_of_zero_le hpos
    rw [Int.cast_natCast] at hlx ⊢
    exact (hkeeps a f hc).1 hlx

/-- What is faithful for a positive sign is faithful for a negative one. -/
theorem faithful_signed {r : Bool → Binary64} (hneg : r true = (r false).neg) {x : ℚ} (n : Nat)
    (h : Faithful (n * x) (r false)) (s : Bool) : Faithful ((signed s n : Int) * x) (r s) := by
  cases s with
  | false => exact h
  | true =>
      have hsign : ((signed true n : Int) : ℚ) * x = -(n * x) := by
        simp [signed]
      rw [hneg, hsign]
      exact h.neg

/-- **Rounding is faithful.** -/
theorem faithful_nearest (s : Bool) (n : Nat) (hd : d ≠ 0) (k : Int) :
    Faithful ((signed s n : Int) * (2 ^ k / d / 2 ^ oneExponent)) (nearest s n d k) := by
  refine faithful_signed (r := fun s => nearest s n d k) (nearest_not false n d k) n ?_ s
  obtain ⟨m, e, heq, hm, hkeeps⟩ := nearest_keeps n hd false k
  have hx : (n : ℚ) * (2 ^ k / d / 2 ^ oneExponent) = n / d * 2 ^ k / 2 ^ oneExponent := by ring
  simp only [hx, heq]
  exact faithful_assemble (by positivity) hm hkeeps

theorem faithful_ofScaled (s : Bool) (n k : Nat) :
    Faithful ((signed s n : Int) * (2 ^ k / 2 ^ oneExponent)) (ofScaled s n k) := by
  unfold ofScaled
  split
  · rename_i hsmall
    refine faithful_signed (r := fun s => assemble s n k) (assemble_not false n k) n ?_ s
    rw [← mul_div_assoc]
    exact faithful_assemble (by positivity) hsmall.le fun a f _ => ⟨id, id⟩
  · have h := faithful_nearest s n one_ne_zero k
    rwa [Nat.cast_one, div_one, zpow_natCast] at h

end Nearest

section Operations

variable {a b : Binary64}

theorem faithful_value (ha : a.isFinite = true) : Faithful a.value a :=
  fun _ _ _ _ hlow hhigh => ⟨ha, hlow, hhigh⟩

/-- Aligned terms with signs are added as integers; a sum of zero from opposite terms is positive. -/
theorem addAligned_cases (s : Bool) (m : Nat) (t : Bool) (n k : Nat) :
    (signed s m + signed t n = 0 ∧ addAligned s m t n k = zero) ∨
    (∃ r j, signed s m + signed t n = signed r j ∧ addAligned s m t n k = ofScaled r j k) := by
  unfold addAligned
  split
  · rename_i hsign
    right
    refine ⟨s, m + n, ?_, rfl⟩
    cases t <;> simp only [hsign, signed, if_true, Bool.false_eq_true, if_false] <;> omega
  · rename_i hsign
    obtain rfl : t = !s := by
      cases s <;> cases t <;> simp at hsign ⊢
    split
    · right
      refine ⟨s, m - n, ?_, rfl⟩
      cases s <;> simp [signed] <;> omega
    · split
      · right
        refine ⟨!s, n - m, ?_, rfl⟩
        cases s <;> simp [signed] <;> omega
      · left
        refine ⟨?_, rfl⟩
        cases s <;> simp [signed] <;> omega

/-- The value at the lower of two exponents. -/
theorem value_aligned {m e : Nat} (h : Canonical m e) (s : Bool) (f : Nat) :
    (finite s m e h).value =
      (signed s (m * twoTo (e - f)) : Int) * (2 ^ min e f / 2 ^ oneExponent) := by
  have hpow : (2 : ℚ) ^ e = 2 ^ (e - f) * 2 ^ min e f := by
    rw [← pow_add]
    congr 1
    omega
  rw [value_finite, signed_mul, hpow, Int.cast_mul, Int.cast_natCast, cast_twoTo]
  ring

/-- A sum is the exact sum rounded once. -/
theorem add_cases (ha : a.isFinite = true) (hb : b.isFinite = true) :
    (a.value + b.value = 0 ∧ a + b = zero) ∨
    (∃ r j k, a.value + b.value = ((signed r j : Int) : ℚ) * (2 ^ k / 2 ^ oneExponent) ∧
      a + b = ofScaled r j k) := by
  obtain ⟨s, m, e, h, rfl⟩ := exists_parts ha
  obtain ⟨t, n, f, h', rfl⟩ := exists_parts hb
  have hsum : (finite s m e h).value + (finite t n f h').value =
      ((signed s (m * twoTo (e - f)) + signed t (n * twoTo (f - e)) : Int) : ℚ) *
        (2 ^ min e f / 2 ^ oneExponent) := by
    rw [value_aligned h s f, value_aligned h' t e, min_comm f e, Int.cast_add, add_mul]
  rcases addAligned_cases s (m * twoTo (e - f)) t (n * twoTo (f - e)) (min e f) with
    ⟨hzero, heq⟩ | ⟨r, j, hsigned, heq⟩
  · left
    rw [hzero, Int.cast_zero, zero_mul] at hsum
    exact ⟨hsum, heq⟩
  · right
    rw [hsigned] at hsum
    exact ⟨r, j, min e f, hsum, heq⟩

theorem faithful_add (ha : a.isFinite = true) (hb : b.isFinite = true) :
    Faithful (a.value + b.value) (a + b) := by
  rcases add_cases ha hb with ⟨hzero, heq⟩ | ⟨r, j, k, hsum, heq⟩
  · rw [hzero, heq, ← value_zero]
    exact faithful_value rfl
  · rw [hsum, heq]
    exact faithful_ofScaled r j k

theorem signed_xor_mul (s t : Bool) (m n : Nat) :
    signed (s ^^ t) (m * n) = signed s m * signed t n := by
  cases s <;> cases t <;> simp [signed]

/-- A product is the exact product rounded once: of whole units, or of a fraction of one. -/
theorem mul_cases (ha : a.isFinite = true) (hb : b.isFinite = true) :
    ∃ r n, (∃ k, a.value * b.value = ((signed r n : Int) : ℚ) * (2 ^ k / 2 ^ oneExponent) ∧
        a * b = ofScaled r n k) ∨
      ∃ d, d ≠ 0 ∧ a.value * b.value = ((signed r n : Int) : ℚ) *
        (2 ^ (0 : Int) / (d : Nat) / 2 ^ oneExponent) ∧ a * b = nearest r n d 0 := by
  obtain ⟨s, m, e, h, rfl⟩ := exists_parts ha
  obtain ⟨t, n, f, h', rfl⟩ := exists_parts hb
  have hpos : (2 : ℚ) ^ oneExponent ≠ 0 := by positivity
  have hproduct : (finite s m e h).value * (finite t n f h').value =
      ((signed (s ^^ t) (m * n) : Int) : ℚ) * (2 ^ (e + f) / 2 ^ oneExponent) /
        2 ^ oneExponent := by
    rw [value_finite, value_finite, signed_xor_mul, pow_add]
    push_cast
    ring
  refine ⟨s ^^ t, m * n, ?_⟩
  rw [hproduct]
  by_cases hge : oneExponent ≤ e + f
  · left
    have hpow : (2 : ℚ) ^ (e + f) = 2 ^ (e + f - oneExponent) * 2 ^ oneExponent := by
      rw [← pow_add, Nat.sub_add_cancel hge]
    refine ⟨e + f - oneExponent, ?_, if_pos hge⟩
    rw [hpow, mul_div_cancel_right₀ _ hpos, mul_div_assoc]
  · right
    have hpow : (2 : ℚ) ^ oneExponent = 2 ^ (oneExponent - (e + f)) * 2 ^ (e + f) := by
      rw [← pow_add, Nat.sub_add_cancel (by omega)]
    have hratio : (2 : ℚ) ^ (e + f) / 2 ^ oneExponent =
        2 ^ (0 : Int) / (twoTo (oneExponent - (e + f)) : Nat) := by
      rw [hpow, cast_twoTo, zpow_zero, div_mul_cancel_right₀ (by positivity), one_div]
    refine ⟨twoTo (oneExponent - (e + f)), Nat.ne_of_gt (twoTo_pos _), ?_, if_neg hge⟩
    rw [hratio, mul_div_assoc]

theorem faithful_mul (ha : a.isFinite = true) (hb : b.isFinite = true) :
    Faithful (a.value * b.value) (a * b) := by
  obtain ⟨r, n, ⟨k, hproduct, heq⟩ | ⟨d, hd, hproduct, heq⟩⟩ := mul_cases ha hb
  · rw [hproduct, heq]
    exact faithful_ofScaled r n k
  · rw [hproduct, heq]
    exact faithful_nearest r n hd 0

/-- A quotient is the exact quotient rounded once. -/
theorem div_eq_nearest (ha : a.isFinite = true) (hb : b.isFinite = true) (hne : b.value ≠ 0) :
    ∃ r n d k, d ≠ 0 ∧
      a.value / b.value = ((signed r n : Int) : ℚ) * (2 ^ k / (d : Nat) / 2 ^ oneExponent) ∧
      a.div b = nearest r n d k := by
  obtain ⟨s, m, e, h, rfl⟩ := exists_parts ha
  obtain ⟨t, n, f, h', rfl⟩ := exists_parts hb
  have hn : n ≠ 0 := fun hzero => hne ((value_eq_zero_iff h' t).mpr hzero)
  refine ⟨s ^^ t, m, n, (e + oneExponent : Nat) - f, hn, ?_, by simp only [div, if_neg hn]⟩
  have hsign : ((signed s m : Int) : ℚ) / (signed t n : Int) = (signed (s ^^ t) m : Int) / n := by
    cases s <;> cases t <;> simp [signed, neg_div, div_neg]
  have hpos : (2 : ℚ) ^ oneExponent ≠ 0 := by positivity
  rw [value_finite, value_finite, two_zpow_sub, pow_add, div_div_div_cancel_right₀ hpos,
    mul_div_mul_comm, hsign]
  field_simp

theorem faithful_div (ha : a.isFinite = true) (hb : b.isFinite = true) (hne : b.value ≠ 0) :
    Faithful (a.value / b.value) (a.div b) := by
  obtain ⟨r, n, d, k, hd, hquotient, heq⟩ := div_eq_nearest ha hb hne
  rw [hquotient, heq]
  exact faithful_nearest r n hd k

end Operations

end Binary64

end ErrorFree
