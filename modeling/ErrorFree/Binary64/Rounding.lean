/-!
# Powers of two and rounding on natural numbers

The integer arithmetic under the binary64 numbers: powers of two, the zeros at the end of a binary
numeral, the place of the leading bit of a ratio, and rounding a ratio to a natural number.

**Results.**
* `twoTo_eq`: `twoTo` is the power of two.
* `shiftRight_trailingZeros_mod_two`, `shiftRight_trailingZeros_mul`: a positive number is an odd
  number, its value shifted by the trailing zeros, times a power of two.
-/

namespace ErrorFree

namespace Binary64

section Powers

/-- The power `2 ^ k`; one that fits in a machine word is a single shift. -/
def twoTo (k : Nat) : Nat :=
  if k < 64 then ((1 : UInt64) <<< UInt64.ofNat k).toNat else Nat.pow 2 k

/-- The power of two at the lowest bit of a number, zero for zero. -/
def lowestBit (n : Nat) : Nat := n - (n &&& (n - 1))

/-- How many zeros stand at the end of a positive number in base two. -/
def trailingZeros (n : Nat) : Nat := (lowestBit n).log2

end Powers

section Ratios

/-- The place of the leading bit of `n / d`: the greatest `p` for which `2 ^ p` is not above the
ratio of two positive numbers. -/
def leadingBit (n d : Nat) : Int :=
  let p : Int := (n.log2 : Int) - d.log2
  if n * twoTo (-p).toNat < d * twoTo p.toNat then p - 1 else p

/-- The natural number closest to `n / d`, the even one if two are equally close. -/
def roundHalfEven (n d : Nat) : Nat :=
  let q := n / d
  let r := 2 * (n % d)
  if r < d then q else if d < r then q + 1 else q + q % 2

end Ratios

section Laws

/-- The shift gives the power of two. -/
theorem twoTo_eq (k : Nat) : twoTo k = Nat.pow 2 k := by
  unfold twoTo
  split
  · rename_i h
    have hlt : Nat.pow 2 k < Nat.pow 2 64 := Nat.pow_lt_pow_right (by decide) h
    have hk : (UInt64.ofNat k).toNat % 64 = k := by
      rw [UInt64.toNat_ofNat']
      omega
    rw [UInt64.toNat_shiftLeft, hk, Nat.shiftLeft_eq, UInt64.toNat_one, Nat.one_mul]
    exact Nat.mod_eq_of_lt hlt
  · rfl

/-- A positive number has a lowest bit. -/
theorem lowestBit_pos {n : Nat} (h : 0 < n) : 0 < lowestBit n := by
  have hle : n &&& (n - 1) ≤ n - 1 := Nat.and_le_right
  unfold lowestBit
  omega

/-- Doubling moves the lowest bit up by one. -/
theorem lowestBit_double (n : Nat) : lowestBit (2 * n) = 2 * lowestBit n := by
  have hdiv : (2 * n &&& (2 * n - 1)) / 2 = n &&& (n - 1) := by
    rw [Nat.and_div_two]
    congr 1 <;> omega
  have hmod : (2 * n &&& (2 * n - 1)) % 2 ≠ 1 := by
    rw [ne_eq, Nat.and_mod_two_eq_one]
    omega
  unfold lowestBit
  omega

/-- The lowest bit of an odd number is its last. -/
theorem lowestBit_odd (n : Nat) : lowestBit (2 * n + 1) = 1 := by
  have hdiv : ((2 * n + 1) &&& (2 * n)) / 2 = n := by
    rw [Nat.and_div_two]
    have hleft : (2 * n + 1) / 2 = n := by omega
    have hright : 2 * n / 2 = n := by omega
    rw [hleft, hright, Nat.and_self]
  have hmod : ((2 * n + 1) &&& (2 * n)) % 2 ≠ 1 := by
    rw [ne_eq, Nat.and_mod_two_eq_one]
    omega
  unfold lowestBit
  rw [Nat.add_sub_cancel]
  omega

/-- Doubling adds a trailing zero. -/
theorem trailingZeros_double {n : Nat} (h : 0 < n) :
    trailingZeros (2 * n) = trailingZeros n + 1 := by
  have hpos := lowestBit_pos h
  unfold trailingZeros
  rw [lowestBit_double, Nat.log2_two_mul (by omega)]

/-- An odd number has no trailing zeros. -/
theorem trailingZeros_odd (n : Nat) : trailingZeros (2 * n + 1) = 0 := by
  unfold trailingZeros
  rw [lowestBit_odd]
  rfl

/-- Taking off the trailing zeros of a double is taking off those of its half. -/
theorem shiftRight_trailingZeros_double {n : Nat} (h : 0 < n) :
    (2 * n) >>> trailingZeros (2 * n) = n >>> trailingZeros n := by
  rw [trailingZeros_double h, Nat.add_comm, Nat.shiftRight_add]
  have hhalf : (2 * n) >>> 1 = n := Nat.mul_div_cancel_left n Nat.two_pos
  rw [hhalf]

/-- Without its trailing zeros a positive number is odd. -/
theorem shiftRight_trailingZeros_mod_two {n : Nat} (h : 0 < n) :
    (n >>> trailingZeros n) % 2 = 1 := by
  induction n using Nat.strongRecOn with
  | _ n ih =>
      rcases Nat.mod_two_eq_zero_or_one n with heven | hodd
      · obtain ⟨m, rfl⟩ : ∃ m, n = 2 * m := ⟨n / 2, by omega⟩
        rw [shiftRight_trailingZeros_double (by omega)]
        exact ih m (by omega) (by omega)
      · obtain ⟨m, rfl⟩ : ∃ m, n = 2 * m + 1 := ⟨n / 2, by omega⟩
        rw [trailingZeros_odd]
        exact hodd

/-- Taking off the trailing zeros loses nothing. -/
theorem shiftRight_trailingZeros_mul (n : Nat) :
    (n >>> trailingZeros n) * Nat.pow 2 (trailingZeros n) = n := by
  induction n using Nat.strongRecOn with
  | _ n ih =>
      rcases Nat.mod_two_eq_zero_or_one n with heven | hodd
      · obtain ⟨m, rfl⟩ : ∃ m, n = 2 * m := ⟨n / 2, by omega⟩
        rcases Nat.eq_zero_or_pos m with rfl | hpos
        · rfl
        · have hpow : Nat.pow 2 (trailingZeros m + 1) = Nat.pow 2 (trailingZeros m) * 2 := rfl
          rw [shiftRight_trailingZeros_double hpos, trailingZeros_double hpos, hpow,
            ← Nat.mul_assoc, ih m (by omega), Nat.mul_comm]
      · obtain ⟨m, rfl⟩ : ∃ m, n = 2 * m + 1 := ⟨n / 2, by omega⟩
        rw [trailingZeros_odd]
        exact Nat.mul_one _

end Laws

end Binary64

end ErrorFree
