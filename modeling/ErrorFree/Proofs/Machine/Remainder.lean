import ErrorFree.Proofs.Binary64.Quotient
import ErrorFree.Proofs.Machine.Landing

/-!
# Jumps by whole distances

**Multiple.**  A landing place `z` that is whole is moved by the multiple `-⌊z / n⌋ · n` of the length
`n`, before the start as well as behind the end: rounding does not take the quotient over a whole
number (`quotient_behind`, `quotient_before`).

**Sum.**  The multiple and the sum are whole numbers of 53 bits, so both are exact.

**Result.**  `target_eq_emod`: a jump by a whole distance lands on the remainder of the landing place
by the length.
-/

namespace ErrorFree

namespace Jump

open Binary64

/-- A length of `n` bytes, and a whole landing place `z` that a jump can lead to. -/
structure Place (n : Nat) (z : Int) (l t : Binary64) : Prop where
  length_finite : l.isFinite = true
  length_value : l.value = n
  length_pos : 0 < n
  length_le : n ≤ 2 ^ 52
  finite : t.isFinite = true
  value : t.value = z
  low : -2 ^ 52 ≤ z
  high : z < 2 ^ 53

namespace Place

variable {n : Nat} {z : Int} {l t : Binary64} (h : Place n z l t)

include h

theorem length_ne : l.value ≠ 0 := by
  rw [h.length_value]
  exact_mod_cast h.length_pos.ne'

/-- How often the length is in a landing place behind the end. -/
theorem quotient_behind (hz : 0 ≤ z) :
    (t.div l).floor.isFinite = true ∧ (t.div l).floor.value = (⌊(z : ℚ) / n⌋ : Int) := by
  have hhigh := h.high
  have hle := h.length_le
  obtain ⟨m, rfl⟩ := Int.eq_ofNat_of_zero_le hz
  have hrounded := rounded_div h.finite h.length_finite h.length_ne
  rw [h.value, h.length_value, Int.cast_natCast] at hrounded
  obtain ⟨hquotient, hfloor, -⟩ := hrounded.floor_quotient (by omega) (by omega) h.length_pos
  obtain ⟨hfinite, hvalue⟩ := value_floor hquotient
  rw [hfloor] at hvalue
  exact ⟨hfinite, by rw [hvalue, Int.cast_natCast]⟩

/-- How often the length takes a landing place before the start to the start or behind it. -/
theorem quotient_before (hz : z < 0) :
    (t.abs.div l).ceil.isFinite = true ∧
      (t.abs.div l).ceil.value = (-⌊(z : ℚ) / n⌋ : Int) := by
  have hlow := h.low
  have hle := h.length_le
  have hcast : |(z : ℚ)| = z.natAbs := by rw [Nat.cast_natAbs, Int.cast_abs]
  have hrounded := rounded_div ((isFinite_abs t).trans h.finite) h.length_finite h.length_ne
  rw [value_abs h.finite, h.value, h.length_value, hcast] at hrounded
  obtain ⟨hquotient, -, hceil⟩ := hrounded.floor_quotient (by omega) (by omega) h.length_pos
  obtain ⟨hfinite, hvalue⟩ := value_ceil hquotient
  refine ⟨hfinite, ?_⟩
  rw [hvalue, hceil, ← hcast, abs_of_neg (by exact_mod_cast hz), neg_div, Int.ceil_neg]

/-- A whole multiple of the length is exact. -/
theorem multiple {q : Binary64} {k : Int} (hq : q.isFinite = true) (hk : q.value = k)
    (hbits : (k * n).natAbs < 2 ^ 53) :
    (q * l).isFinite = true ∧ (q * l).value = (k * n : Int) := by
  have hfaithful := faithful_mul hq h.length_finite
  have hproduct : (k : ℚ) * n = (k * n : Int) := by push_cast; rfl
  rw [hk, h.length_value, hproduct] at hfaithful
  exact hfaithful.exact (isNumber_intCast hbits)

/-- Moved into the program, a landing place is its remainder by the length. -/
theorem wrap_value : (wrap l t).isFinite = true ∧ (wrap l t).value = (z % n : Int) := by
  have hlow := h.low
  have hhigh := h.high
  have hle := h.length_le
  have hpos := h.length_pos
  have hmod : z % n = z - n * ⌊(z : ℚ) / n⌋ := Int.mod_nat_eq_sub_mul_floor_rat_div
  have hnonneg : 0 ≤ z % n := Int.emod_nonneg z (by omega)
  have hlt : z % n < n := Int.emod_lt_of_pos z (by omega)
  rw [mul_comm] at hmod
  have hnumber : IsNumber (z % n : Int) := isNumber_intCast (by omega)
  rcases lt_or_ge z 0 with hneg | hzero
  · obtain ⟨hq, hk⟩ := h.quotient_before hneg
    obtain ⟨hp, hvalue⟩ := h.multiple hq hk (by rw [neg_mul]; omega)
    have hsum : t.value + ((t.abs.div l).ceil * l).value = (z % n : Int) := by
      rw [h.value, hvalue, hmod]
      push_cast
      ring
    rw [wrap_of_before h.finite (by rw [h.value]; exact_mod_cast hneg)]
    exact (hsum ▸ faithful_add h.finite hp).exact hnumber
  · rcases lt_or_ge z n with hinside | hbehind
    · rw [wrap_of_inside h.length_finite h.finite (by rw [h.value]; exact_mod_cast hzero)
        (by rw [h.value, h.length_value]; exact_mod_cast hinside), Int.emod_eq_of_lt hzero hinside]
      exact ⟨h.finite, h.value⟩
    · obtain ⟨hq, hk⟩ := h.quotient_behind hzero
      obtain ⟨hp, hvalue⟩ := h.multiple hq hk (by omega)
      have hdifference : t.value - ((t.div l).floor * l).value = (z % n : Int) := by
        rw [h.value, hvalue, hmod]
        push_cast
        ring
      rw [wrap_of_behind h.length_finite h.finite (by rw [h.value]; exact_mod_cast hzero)
        (by rw [h.value, h.length_value]; exact_mod_cast hbehind)]
      exact (hdifference ▸ rounded_sub h.finite hp).exact hnumber

end Place

/-- A jump by a whole distance of at most `2 ^ 52` leads to a whole place, exactly. -/
theorem place {cursor length : Nat} {offset : Binary64} {z : Int} (hlength : length ≤ 2 ^ 52)
    (hcursor : cursor < length) (hfinite : offset.isFinite = true) (hoffset : offset.value = z)
    (hz : |z| ≤ 2 ^ 52) :
    Place length (cursor + z) (ofNat length) (ofNat cursor + offset) := by
  obtain ⟨hlow, hhigh⟩ := abs_le.mp hz
  have hbits : twoTo 53 = 2 ^ 53 := twoTo_eq_pow 53
  have hcursorFinite := isFinite_ofNat (n := cursor) (by omega)
  have hsum : (ofNat cursor).value + offset.value = (cursor + z : Int) := by
    rw [value_ofNat (by omega), hoffset]
    push_cast
    rfl
  obtain ⟨hsumFinite, hsumValue⟩ := (hsum ▸ faithful_add hcursorFinite hfinite).exact
    (isNumber_intCast (by omega))
  exact {
    length_finite := isFinite_ofNat (by omega)
    length_value := value_ofNat (by omega)
    length_pos := by omega
    length_le := hlength
    finite := hsumFinite
    value := hsumValue
    low := by omega
    high := by omega }

/-- **Jumps by whole distances.**  For a length of at most `2 ^ 52` and a whole distance of at most
`2 ^ 52` in either direction, a jump lands on the remainder of the position and the distance by the
length, in exact integers. -/
theorem target_eq_emod (cursor : Nat) (offset : Binary64) (length : Nat) (z : Int)
    (hlength : length ≤ 2 ^ 52) (hcursor : cursor < length) (hfinite : offset.isFinite = true)
    (hoffset : offset.value = z) (hz : |z| ≤ 2 ^ 52) :
    (target cursor offset length : Int) = (cursor + z) % length := by
  have h := place hlength hcursor hfinite hoffset hz
  obtain ⟨hwrap, hvalue⟩ := h.wrap_value
  have hpos := h.length_pos
  have hnonneg : 0 ≤ (cursor + z) % (length : Int) := Int.emod_nonneg _ (by omega)
  have hlt : (cursor + z) % (length : Int) < length := Int.emod_lt_of_pos _ (by omega)
  have htarget : target cursor offset length =
      min ⌊(wrap (ofNat length) (ofNat cursor + offset)).value⌋.toNat length :=
    clamped_floor h.length_finite h.length_value (by rwa [twoTo_eq_pow]) hwrap
  rw [htarget, hvalue, Int.floor_intCast]
  omega

/-- A jump from byte six of seven by `-2 ^ 52`, which wraps around more than `2 ^ 49` times. -/
theorem target_eq_emod_far :
    7 ≤ 2 ^ 52 ∧ 6 < 7 ∧ (Binary64.finite true 1 1126 (by decide)).value = (-2 ^ 52 : Int) ∧
      target 6 (.finite true 1 1126 (by decide)) 7 = 4 := by
  have hvalue : (Binary64.finite true 1 1126 (by decide)).value = (-2 ^ 52 : Int) :=
    value_finite_whole (by decide) (by decide) true
  have htarget := target_eq_emod 6 (.finite true 1 1126 (by decide)) 7 (-2 ^ 52) (by decide)
    (by decide) rfl hvalue (by decide)
  have hremainder : ((6 : Nat) + -2 ^ 52 : Int) % (7 : Nat) = (4 : Nat) := by decide
  exact ⟨by decide, by decide, hvalue, Int.ofNat_inj.mp (htarget.trans hremainder)⟩

end Jump

end ErrorFree
