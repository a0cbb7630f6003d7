import ErrorFree.Machine.Jump
import ErrorFree.Proofs.Binary64.Faithful

/-!
# Where a jump lands

A landing place outside of the program is moved into it by a multiple of the length, in rounded
arithmetic.

**Quotient.**  Rounding takes the quotient of the landing place by the length to a whole number only
if that is one of the two next to it, so the multiple is the right one or one beside it.  One beside
it leaves the landing place before the start, and it is kept at the start.

**Sum.**  With the right multiple the sum is exact if it is closer to zero than the landing place.
That leaves the landing places less than one length before the start, where the sum is rounded, and
may be rounded to the length.

**Result.**  `target_eq_length_iff`: a jump lands in the program, unless it leads to a place before
the start that is so close to it that adding the length gives the length.
-/

namespace ErrorFree

namespace Jump

open Binary64

variable {t l : Binary64} {n : Nat}

section Clamp

/-- The landing place after rounding down and clamping. -/
theorem clamped_floor (hl : l.isFinite = true) (hn : l.value = n) (hsmall : n ≤ twoTo 52)
    (ht : t.isFinite = true) :
    (clamp zero l t.floor).toNatClamped (twoTo 64 - 1) = min ⌊t.value⌋.toNat n := by
  obtain ⟨hfinite, hvalue⟩ := value_floor ht
  have hlimit : twoTo 52 ≤ twoTo 64 - 1 := by decide
  have hzero : zero.isFinite = true := rfl
  simp only [clamp, less_iff_value_lt hfinite hzero, less_iff_value_lt hl hfinite, hvalue, hn,
    value_zero]
  split
  · rename_i hneg
    have hneg : ⌊t.value⌋ < 0 := by exact_mod_cast hneg
    rw [toNatClamped_of_value (n := 0) hzero (by simp) (Nat.zero_le _)]
    omega
  · rename_i hnonneg
    have hnonneg : 0 ≤ ⌊t.value⌋ := by exact_mod_cast not_lt.mp hnonneg
    split
    · rename_i hbig
      have hbig : (n : Int) < ⌊t.value⌋ := by exact_mod_cast hbig
      rw [toNatClamped_of_value hl hn (by omega)]
      omega
    · rename_i hle
      have hle : ⌊t.value⌋ ≤ n := by exact_mod_cast not_lt.mp hle
      have hcast : t.floor.value = (⌊t.value⌋.toNat : Nat) := by
        rw [hvalue]
        exact_mod_cast (Int.toNat_of_nonneg hnonneg).symm
      rw [toNatClamped_of_value hfinite hcast (by omega)]
      omega

theorem min_floor_eq_iff (hn : 0 < n) (x : ℚ) : min ⌊x⌋.toNat n = n ↔ (n : ℚ) ≤ x := by
  have hfloor : ((n : Int) : ℚ) ≤ x ↔ (n : Int) ≤ ⌊x⌋ := Int.le_floor.symm
  rw [Int.cast_natCast] at hfloor
  rw [hfloor]
  omega

end Clamp

section Sums

variable {p : Binary64}

/-- A landing place moved by a whole number towards zero is moved exactly. -/
theorem add_exact {z : Int} (ht : t.isFinite = true) (hp : Faithful z p) (hz : z.natAbs < 2 ^ 53)
    (hcloser : |t.value + z| ≤ |t.value|) (hsmall : |t.value + z| < 2 ^ 53) :
    (t + p).isFinite = true ∧ (t + p).value = t.value + z := by
  obtain ⟨hfinite, hvalue⟩ := hp.exact (isNumber_intCast hz)
  have hsum := faithful_add ht hfinite
  rw [hvalue] at hsum
  exact hsum.exact ((isNumber_value ht).add_intCast hcloser hsmall)

/-- A landing place moved over the start is not behind it after rounding. -/
theorem add_nonpos (ht : t.isFinite = true) (hp : p.isFinite = true)
    (hside : 0 ≤ t.value ∨ 0 ≤ p.value) (hle : t.value + p.value ≤ 0) :
    (t + p).isFinite = true ∧ (t + p).value ≤ 0 := by
  have hsum := faithful_add ht hp
  have hzero : IsNumber 0 := ⟨zero, rfl, value_zero⟩
  rcases hside with hside | hside
  · obtain ⟨hfinite, -, hnonpos⟩ := hsum p.value 0 (isNumber_value hp) hzero (by linarith) hle
    exact ⟨hfinite, hnonpos⟩
  · obtain ⟨hfinite, -, hnonpos⟩ := hsum t.value 0 (isNumber_value ht) hzero (by linarith) hle
    exact ⟨hfinite, hnonpos⟩

end Sums

section Wrap

/-- A landing place in the program stays. -/
theorem wrap_of_inside (hl : l.isFinite = true) (ht : t.isFinite = true) (hlow : 0 ≤ t.value)
    (hhigh : t.value < l.value) : wrap l t = t := by
  have hless : ¬ t.less zero = true := by
    rw [less_iff_value_lt ht rfl, value_zero]
    exact not_lt.mpr hlow
  have hlessEq : ¬ l.lessEq t = true := by
    rw [lessEq_iff_value_le hl ht]
    exact not_le.mpr hhigh
  rw [wrap, if_neg hless, if_neg hlessEq]

/-- One behind the end is moved back. -/
theorem wrap_of_behind (hl : l.isFinite = true) (ht : t.isFinite = true) (hlow : 0 ≤ t.value)
    (hhigh : l.value ≤ t.value) : wrap l t = t - (t.div l).floor * l := by
  have hless : ¬ t.less zero = true := by
    rw [less_iff_value_lt ht rfl, value_zero]
    exact not_lt.mpr hlow
  have hlessEq : l.lessEq t = true := (lessEq_iff_value_le hl ht).mpr hhigh
  rw [wrap, if_neg hless, if_pos hlessEq]

/-- One before the start is moved forward. -/
theorem wrap_of_before (ht : t.isFinite = true) (hlow : t.value < 0) :
    wrap l t = t + (t.abs.div l).ceil * l := by
  have hless : t.less zero = true := by
    rwa [less_iff_value_lt ht rfl, value_zero]
  rw [wrap, if_pos hless]

/-- A length, and a landing place within reach of it. -/
structure Reach (n : Nat) (l t : Binary64) : Prop where
  length_finite : l.isFinite = true
  length_value : l.value = n
  length_pos : 0 < n
  length_le : n ≤ twoTo 52
  finite : t.isFinite = true
  low : -1000000 ≤ t.value
  high : t.value ≤ 2 ^ 52 + 1000000

namespace Reach

variable (h : Reach n l t)

include h

theorem pos : (0 : ℚ) < n := by exact_mod_cast h.length_pos

theorem le : (n : ℚ) ≤ 2 ^ 52 := by
  rw [← cast_twoTo]
  exact_mod_cast h.length_le

theorem faithful_quotient : Faithful (t.value / n) (t.div l) := by
  have hne : l.value ≠ 0 := by
    rw [h.length_value]
    exact h.pos.ne'
  rw [← h.length_value]
  exact faithful_div h.finite h.length_finite hne

theorem faithful_multiple {q : Binary64} {k : Int} (hq : q.isFinite = true) (hk : q.value = k) :
    Faithful (k * n : Int) (q * l) := by
  have hmul := faithful_mul hq h.length_finite
  rw [hk, h.length_value] at hmul
  exact_mod_cast hmul

/-- The multiple by which a landing place behind the end is moved back: as often as the length is in
it, or once more. -/
theorem multiple_behind (hhigh : n ≤ t.value) :
    ∃ k : Int, 1 ≤ k ∧ k * n ≤ t.value ∧ t.value < (k + 1) * n ∧
      (Faithful (k * n : Int) ((t.div l).floor * l) ∨
        Faithful ((k + 1) * n : Int) ((t.div l).floor * l)) := by
  have hpos := h.pos
  obtain ⟨k, hk⟩ : ∃ k, ⌊t.value / n⌋ = k := ⟨_, rfl⟩
  obtain ⟨hlow, hlt⟩ := Int.floor_eq_iff.mp hk
  have hone : 1 ≤ k := by
    rw [← hk, Int.le_floor, le_div_iff₀ hpos]
    simpa using hhigh
  have hmost : k ≤ 2 ^ 52 + 1000000 := by
    have hself : t.value / n ≤ t.value :=
      div_le_self (hpos.le.trans hhigh) (by exact_mod_cast h.length_pos)
    exact_mod_cast hlow.trans (hself.trans h.high)
  obtain ⟨hq, hq₁, hq₂⟩ := h.faithful_quotient k (k + 1 : Int) (isNumber_intCast (by omega))
    (isNumber_intCast (by omega)) hlow (by exact_mod_cast hlt.le)
  obtain ⟨hfloor, hvalue⟩ := value_floor hq
  have hmultiple := h.faithful_multiple hfloor hvalue
  have hnext : ⌊(t.div l).value⌋ = k ∨ ⌊(t.div l).value⌋ = k + 1 := by
    have hge : k ≤ ⌊(t.div l).value⌋ := Int.le_floor.mpr hq₁
    have hle : ⌊(t.div l).value⌋ ≤ k + 1 := by
      exact_mod_cast (Int.floor_le _).trans hq₂
    omega
  rw [le_div_iff₀ hpos] at hlow
  rw [div_lt_iff₀ hpos] at hlt
  refine ⟨k, hone, hlow, hlt, ?_⟩
  rcases hnext with heq | heq
  · left
    rwa [heq] at hmultiple
  · right
    rwa [heq] at hmultiple

/-- Behind the end: moved back, the landing place is before the end. -/
theorem wrap_behind (hhigh : n ≤ t.value) :
    (wrap l t).isFinite = true ∧ (wrap l t).value < n := by
  have hpos := h.pos
  have hle := h.le
  have htop := h.high
  obtain ⟨k, hone, hlow, hlt, hmultiple⟩ := h.multiple_behind hhigh
  rw [wrap_of_behind h.length_finite h.finite (hpos.le.trans hhigh) (h.length_value.trans_le hhigh)]
  show (t + ((t.div l).floor * l).neg).isFinite = true ∧ (t + ((t.div l).floor * l).neg).value < n
  generalize (t.div l).floor * l = p at hmultiple ⊢
  rcases hmultiple with hmultiple | hmultiple
  · have hz : (k * n : Int) ≤ 2 ^ 52 + 1000000 := by exact_mod_cast hlow.trans htop
    have hz' : 0 ≤ (k * n : Int) := by positivity
    have hwhole : (0 : ℚ) ≤ k * n := by exact_mod_cast hz'
    have habs : |t.value + ((-(k * n) : Int) : ℚ)| = t.value - k * n := by
      push_cast
      rw [← sub_eq_add_neg]
      exact abs_of_nonneg (by linarith)
    have hback := hmultiple.neg
    rw [← Int.cast_neg] at hback
    obtain ⟨hfinite, hvalue⟩ := add_exact h.finite hback (by omega)
      (by rw [habs, abs_of_nonneg (hpos.le.trans hhigh)]; linarith) (by rw [habs]; linarith)
    refine ⟨hfinite, ?_⟩
    rw [hvalue]
    push_cast
    linarith
  · -- Once more than the length is in it: the landing place is moved over the start.
    push_cast at hmultiple
    obtain ⟨hp, hover, -⟩ := hmultiple t.value (2 ^ 54) (isNumber_value h.finite)
      (isNumber_two_pow (by decide)) hlt.le (by linarith)
    obtain ⟨hfinite, hnonpos⟩ := add_nonpos (p := p.neg) h.finite (by rwa [isFinite_neg])
      (Or.inl (hpos.le.trans hhigh)) (by rw [value_neg]; linarith)
    exact ⟨hfinite, lt_of_le_of_lt hnonpos hpos⟩

theorem abs : Reach n l t.abs where
  length_finite := h.length_finite
  length_value := h.length_value
  length_pos := h.length_pos
  length_le := h.length_le
  finite := by rw [isFinite_abs, h.finite]
  low := by
    rw [value_abs h.finite]
    exact (by norm_num : (-1000000 : ℚ) ≤ 0).trans (abs_nonneg _)
  high := by
    have hlow := h.low
    rw [value_abs h.finite]
    exact abs_le.mpr ⟨by linarith, h.high⟩

theorem isFinite_quotient : (t.abs.div l).isFinite = true := by
  have hlow := h.low
  have hhigh := h.high
  have hle : |t.value| / n ≤ |t.value| :=
    div_le_self (abs_nonneg _) (by exact_mod_cast h.length_pos)
  have hmost : |t.value| ≤ 2 ^ 54 := abs_le.mpr ⟨by linarith, by linarith⟩
  have hpos := h.pos
  have hquotient := h.abs.faithful_quotient
  rw [value_abs h.finite] at hquotient
  exact (hquotient (0 : Int) (2 ^ 54) (isNumber_intCast (by decide))
    (isNumber_two_pow (by decide)) (by push_cast; positivity) (hle.trans hmost)).1

/-- Just before the start: moved forward by the length once. -/
theorem wrap_near (hlow : t.value < 0) (hnear : -n ≤ t.value) (hq : 0 < (t.abs.div l).value) :
    wrap l t = t + l := by
  have hpos := h.pos
  have hratio : |t.value| / n ≤ ((1 : Int) : ℚ) := by
    rw [abs_of_neg hlow, div_le_iff₀ hpos]
    push_cast
    linarith
  have hquotient := h.abs.faithful_quotient
  rw [value_abs h.finite] at hquotient
  obtain ⟨hfinite, -, hle⟩ := hquotient (0 : Int) (1 : Int) (isNumber_intCast (by decide))
    (isNumber_intCast (by decide)) (by push_cast; positivity) hratio
  obtain ⟨hceil, hvalue⟩ := value_ceil hfinite
  have hone : ⌈(t.abs.div l).value⌉ = 1 := by
    apply le_antisymm (Int.ceil_le.mpr hle)
    exact Int.ceil_pos.mpr hq
  rw [hone] at hvalue
  have hmultiple := h.faithful_multiple hceil hvalue
  rw [one_mul, Int.cast_natCast, ← h.length_value] at hmultiple
  obtain ⟨hp, hsame⟩ := hmultiple.exact (isNumber_value h.length_finite)
  have hne : ((t.abs.div l).ceil * l).value ≠ 0 := by
    rw [hsame, h.length_value]
    exact hpos.ne'
  rw [wrap_of_before h.finite hlow, eq_of_value_eq hp h.length_finite hne hsame]

/-- The multiple by which a landing place before the start is moved forward: as often as it takes to
come to the start, or once less. -/
theorem multiple_before (hlow : t.value < 0) :
    ∃ k : Int, 1 ≤ k ∧ (k - 1) * n < -t.value ∧ -t.value ≤ k * n ∧
      (Faithful ((k - 1) * n : Int) ((t.abs.div l).ceil * l) ∨
        0 < (t.abs.div l).value ∧ Faithful (k * n : Int) ((t.abs.div l).ceil * l)) := by
  have hpos := h.pos
  have hbottom := h.low
  obtain ⟨k, hk⟩ : ∃ k, ⌈-t.value / n⌉ = k := ⟨_, rfl⟩
  obtain ⟨hlt, hhigh⟩ := Int.ceil_eq_iff.mp hk
  have hone : 1 ≤ k := by
    rw [← hk]
    exact Int.ceil_pos.mpr (div_pos (by linarith) hpos)
  have hmost : k ≤ 1000000 := by
    have hself : -t.value / n ≤ -t.value :=
      div_le_self (by linarith) (by exact_mod_cast h.length_pos)
    rw [← hk, Int.ceil_le]
    push_cast
    linarith
  have hquotient := h.abs.faithful_quotient
  rw [value_abs h.finite, abs_of_neg hlow] at hquotient
  obtain ⟨hq, hq₁, hq₂⟩ := hquotient (k - 1 : Int) k (isNumber_intCast (by omega))
    (isNumber_intCast (by omega)) (by push_cast; exact hlt.le) hhigh
  obtain ⟨hceil, hvalue⟩ := value_ceil hq
  have hmultiple := h.faithful_multiple hceil hvalue
  have hnext : ⌈(t.abs.div l).value⌉ = k - 1 ∨ ⌈(t.abs.div l).value⌉ = k := by
    have hle : ⌈(t.abs.div l).value⌉ ≤ k := Int.ceil_le.mpr hq₂
    have hge : k - 1 ≤ ⌈(t.abs.div l).value⌉ := by
      exact_mod_cast hq₁.trans (Int.le_ceil _)
    omega
  rw [lt_div_iff₀ hpos] at hlt
  rw [div_le_iff₀ hpos] at hhigh
  refine ⟨k, hone, hlt, hhigh, ?_⟩
  rcases hnext with heq | heq
  · left
    rwa [heq] at hmultiple
  · right
    rw [heq] at hmultiple
    exact ⟨Int.ceil_pos.mp (by omega), hmultiple⟩

/-- Farther before the start: moved forward, the landing place is before the end. -/
theorem wrap_far (hlow : t.value < 0) (hfar : t.value < -n ∨ (t.abs.div l).value ≤ 0) :
    (wrap l t).isFinite = true ∧ (wrap l t).value < n := by
  have hpos := h.pos
  have hle := h.le
  have hbottom := h.low
  obtain ⟨k, hone, hlt, hhigh, hmultiple⟩ := h.multiple_before hlow
  rw [wrap_of_before h.finite hlow]
  rcases hmultiple with hmultiple | ⟨hq, hmultiple⟩
  · -- Once less than it takes: the landing place stays before the start.
    have hz : ((k - 1) * n : Int) < 1000000 := by
      have hcast : ((k : ℚ) - 1) * n < 1000000 := by linarith
      exact_mod_cast hcast
    have hz' : 0 ≤ ((k - 1) * n : Int) := mul_nonneg (by omega) (by positivity)
    obtain ⟨hp, hvalue⟩ := hmultiple.exact (isNumber_intCast (by omega))
    obtain ⟨hfinite, hnonpos⟩ := add_nonpos h.finite hp
      (Or.inr (by rw [hvalue]; exact_mod_cast hz')) (by rw [hvalue]; push_cast; linarith)
    exact ⟨hfinite, lt_of_le_of_lt hnonpos hpos⟩
  · have hfar := hfar.resolve_right (not_le.mpr hq)
    have htwo : (2 : ℚ) ≤ k := by
      have hmore : (1 : ℚ) < k := lt_of_mul_lt_mul_right (by linarith) hpos.le
      exact_mod_cast hmore
    have hfirst : (n : ℚ) ≤ (k - 1) * n := le_mul_of_one_le_left hpos.le (by linarith)
    have hz : (k * n : Int) < 2 ^ 52 + 1000000 := by
      have hcast : (k : ℚ) * n < 2 ^ 52 + 1000000 := by linarith
      exact_mod_cast hcast
    have hz' : 0 ≤ (k * n : Int) := by positivity
    have habs : |t.value + ((k * n : Int) : ℚ)| = t.value + k * n := by
      push_cast
      exact abs_of_nonneg (by linarith)
    obtain ⟨hfinite, hvalue⟩ := add_exact h.finite hmultiple (by omega)
      (by rw [habs, abs_of_neg hlow]; linarith) (by rw [habs]; linarith)
    refine ⟨hfinite, ?_⟩
    rw [hvalue]
    push_cast
    linarith

/-- Wherever a jump leads to, the landing place is finite, and it is before the end but for what is
so close before the start that adding the length gives the length. -/
theorem wrap_cases :
    (wrap l t).isFinite = true ∧
    ((n : ℚ) ≤ (wrap l t).value ↔
      t.less zero = true ∧ t + l = l ∧ zero.less (t.abs.div l) = true) := by
  have hpos := h.pos
  have hquotient := h.isFinite_quotient
  rw [less_iff_value_lt h.finite rfl, less_iff_value_lt rfl hquotient, value_zero]
  rcases lt_or_ge t.value 0 with hlow | hlow
  · by_cases hnear : -n ≤ t.value ∧ 0 < (t.abs.div l).value
    · have hsum := faithful_add h.finite h.length_finite
      rw [h.length_value] at hsum
      obtain ⟨hfinite, -, hle⟩ := hsum (0 : Int) n (isNumber_intCast (by decide))
        (h.length_value ▸ isNumber_value h.length_finite) (by push_cast; linarith) (by linarith)
      rw [h.wrap_near hlow hnear.1 hnear.2]
      refine ⟨hfinite, fun hge => ⟨hlow, ?_, hnear.2⟩, fun ⟨_, hsame, _⟩ => ?_⟩
      · have hvalue : (t + l).value = n := le_antisymm hle hge
        exact eq_of_value_eq hfinite h.length_finite (by rw [hvalue]; exact hpos.ne')
          (by rw [hvalue, h.length_value])
      · rw [hsame, h.length_value]
    · have hfar : t.value < -n ∨ (t.abs.div l).value ≤ 0 := by
        rcases lt_or_ge t.value (-n) with hfar | hnear'
        · exact Or.inl hfar
        · exact Or.inr (not_lt.mp fun hq => hnear ⟨hnear', hq⟩)
      obtain ⟨hfinite, hlt⟩ := h.wrap_far hlow hfar
      refine ⟨hfinite, fun hge => absurd hge (not_le.mpr hlt), fun ⟨_, hsame, hq⟩ => ?_⟩
      have hfar := hfar.resolve_right (not_le.mpr hq)
      have hnonpos := (add_nonpos h.finite h.length_finite
        (Or.inr (by rw [h.length_value]; exact hpos.le)) (by rw [h.length_value]; linarith)).2
      rw [hsame, h.length_value] at hnonpos
      exact absurd hpos (not_lt.mpr hnonpos)
  · have hinside : (wrap l t).isFinite = true ∧ (wrap l t).value < n := by
      rcases lt_or_ge t.value n with hhigh | hhigh
      · rw [wrap_of_inside h.length_finite h.finite hlow (hhigh.trans_eq h.length_value.symm)]
        exact ⟨h.finite, hhigh⟩
      · exact h.wrap_behind hhigh
    refine ⟨hinside.1, fun hge => absurd hge (not_le.mpr hinside.2), fun ⟨hneg, _⟩ => ?_⟩
    exact absurd hneg (not_lt.mpr hlow)

end Reach

end Wrap

section Target

/-- A distance of at most a million leads to a place within reach. -/
theorem reach {cursor length : Nat} {offset : Binary64} (hlength : length ≤ twoTo 52)
    (hcursor : cursor < length) (hoffset : offset.abs.lessEq (ofNat 1000000) = true) :
    Reach length (ofNat length) (ofNat cursor + offset) := by
  have hbits : twoTo 52 = 2 ^ 52 ∧ twoTo 53 = 2 ^ 53 := by decide
  have hfinite := isFinite_of_abs_lessEq (isFinite_ofNat (by omega)) hoffset
  rw [lessEq_iff_value_le (by rwa [isFinite_abs]) (isFinite_ofNat (by omega)), value_abs hfinite,
    value_ofNat (by omega), abs_le] at hoffset
  obtain ⟨hlow, hhigh⟩ := hoffset
  have hcast : (cursor : ℚ) ≤ 2 ^ 52 := by
    have hle : cursor ≤ 2 ^ 52 := by omega
    exact_mod_cast hle
  have hsum := faithful_add (isFinite_ofNat (n := cursor) (by omega)) hfinite
  rw [value_ofNat (by omega)] at hsum
  have hzero : (0 : ℚ) ≤ cursor := cursor.cast_nonneg
  push_cast at hlow hhigh
  obtain ⟨hsumFinite, hsumLow, hsumHigh⟩ := hsum (-1000000 : Int) (2 ^ 52 + 1000000 : Int)
    (isNumber_intCast (by decide)) (isNumber_intCast (by decide))
    (by push_cast; linarith) (by push_cast; linarith)
  push_cast at hsumLow hsumHigh
  exact {
    length_finite := isFinite_ofNat (by omega)
    length_value := value_ofNat (by omega)
    length_pos := by omega
    length_le := hlength
    finite := hsumFinite
    low := hsumLow
    high := by linarith }

/-- **Where a jump lands.**  For a length of at most `2 ^ 52` and a distance of at most a million, a
jump lands on a byte of the program, with one exception: it lands on the length, and so ends the run,
exactly when it leads to a place before the start that is so close to it that adding the length gives
the length, and not so close that its ratio to the length is rounded to zero. -/
theorem target_eq_length_iff (cursor : Nat) (offset : Binary64) (length : Nat)
    (hlength : length ≤ twoTo 52) (hcursor : cursor < length)
    (hoffset : offset.abs.lessEq (ofNat 1000000) = true) :
    target cursor offset length ≤ length ∧
    (target cursor offset length = length ↔
      (ofNat cursor + offset).less zero = true ∧
      ofNat cursor + offset + ofNat length = ofNat length ∧
      zero.less ((ofNat cursor + offset).abs.div (ofNat length)) = true) := by
  have h := reach hlength hcursor hoffset
  obtain ⟨hfinite, hiff⟩ := h.wrap_cases
  have htarget : target cursor offset length =
      min ⌊(wrap (ofNat length) (ofNat cursor + offset)).value⌋.toNat length :=
    clamped_floor h.length_finite h.length_value hlength hfinite
  rw [htarget, min_floor_eq_iff h.length_pos]
  exact ⟨Nat.min_le_right _ _, hiff⟩

/-- Half a byte before the start: the jump lands in the program. -/
theorem target_eq_length_iff_half :
    10 ≤ twoTo 52 ∧ 3 < 10 ∧
    (Binary64.finite true 7 1073 (by decide)).abs.lessEq (ofNat 1000000) = true ∧
    target 3 (.finite true 7 1073 (by decide)) 10 < 10 := by
  have hoffset : (Binary64.finite true 7 1073 (by decide)).abs.lessEq (ofNat 1000000) = true := by
    decide
  obtain ⟨hle, hiff⟩ := target_eq_length_iff 3 (.finite true 7 1073 (by decide)) 10 (by decide)
    (by decide) hoffset
  have hne : target 3 (.finite true 7 1073 (by decide)) 10 ≠ 10 := by
    rw [ne_eq, hiff]
    decide
  exact ⟨by decide, by decide, hoffset, lt_of_le_of_ne hle hne⟩

/-- A jump that leads to a place `2 ^ (-60)` before the start lands on the length. -/
theorem target_just_before_start :
    (Binary64.finite true 1 1014 (by decide)).equal zero = false ∧
    (Binary64.finite true 1 1014 (by decide)).abs.lessEq (ofNat 1000000) = true ∧
    target 0 (.finite true 1 1014 (by decide)) 10 = 10 := by
  decide

end Target

end Jump

end ErrorFree
