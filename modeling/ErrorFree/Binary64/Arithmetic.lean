import ErrorFree.Binary64.Basic

/-!
# Arithmetic on binary64 numbers

**Rule.**  Each operation on finite numbers is the exact result on integers, rounded once.  Sums,
differences, remainders and comparisons bring both significands to the lower of the two exponents;
products and quotients work on the significands and the exponents apart; a square root is decided
from an exact integer root.

**Exceptions.**  Infinities and not-a-number follow the usual rules: a sum of opposite infinities,
a product of zero and an infinity, a quotient of two zeros or two infinities, a remainder of an
infinity or by zero and the root of a negative number are not-a-number.

**Platform functions.**  Only the power and the base-10 logarithm come from the machine's
mathematical library, through the bit pattern.

**Result.**  `less_iff_units_lt`: on finite numbers the order is that of the exact values.
-/

namespace ErrorFree

namespace Binary64

section Signs

/-- The same number with its sign turned. -/
def neg : Binary64 → Binary64
  | .nan => .nan
  | .infinity s => .infinity !s
  | .finite s m e h => .finite (!s) m e h

/-- The same number with a positive sign. -/
def abs : Binary64 → Binary64
  | .nan => .nan
  | .infinity _ => .infinity false
  | .finite _ m e h => .finite false m e h

end Signs

section Operations

/-- The sum of `± m` and `± n` times `2 ^ k` units.  An exact zero is negative only if both terms
are. -/
def addAligned (s : Bool) (m : Nat) (t : Bool) (n k : Nat) : Binary64 :=
  if s = t then ofScaled s (m + n) k
  else if n < m then ofScaled s (m - n) k
  else if m < n then ofScaled t (n - m) k
  else zero

/-- The sum. -/
def add : Binary64 → Binary64 → Binary64
  | .nan, _ => .nan
  | _, .nan => .nan
  | .infinity s, .infinity t => if s = t then .infinity s else .nan
  | .infinity s, .finite .. => .infinity s
  | .finite .., .infinity t => .infinity t
  | .finite s m e _, .finite t n f _ =>
      addAligned s (m * twoTo (e - f)) t (n * twoTo (f - e)) (min e f)

/-- The difference. -/
def sub (a b : Binary64) : Binary64 := a.add b.neg

/-- The product. -/
def mul : Binary64 → Binary64 → Binary64
  | .nan, _ => .nan
  | _, .nan => .nan
  | .infinity s, .infinity t => .infinity (s ^^ t)
  | .infinity s, .finite t m _ _ => if m = 0 then .nan else .infinity (s ^^ t)
  | .finite s m _ _, .infinity t => if m = 0 then .nan else .infinity (s ^^ t)
  | .finite s m e _, .finite t n f _ =>
      if oneExponent ≤ e + f then ofScaled (s ^^ t) (m * n) (e + f - oneExponent)
      else nearest (s ^^ t) (m * n) (twoTo (oneExponent - (e + f))) 0

/-- The quotient. -/
def div : Binary64 → Binary64 → Binary64
  | .nan, _ => .nan
  | _, .nan => .nan
  | .infinity _, .infinity _ => .nan
  | .infinity s, .finite t _ _ _ => .infinity (s ^^ t)
  | .finite s _ _ _, .infinity t => signedZero (s ^^ t)
  | .finite s m e _, .finite t n f _ =>
      if n = 0 then (if m = 0 then .nan else .infinity (s ^^ t))
      else nearest (s ^^ t) m n ((e + oneExponent : Nat) - f)

/-- The exact remainder of a division that truncates; it has the sign of the dividend. -/
def rem : Binary64 → Binary64 → Binary64
  | .nan, _ => .nan
  | _, .nan => .nan
  | .infinity _, _ => .nan
  | .finite s m e h, .infinity _ => .finite s m e h
  | .finite s m e _, .finite _ n f _ =>
      if n = 0 then .nan
      else ofScaled s (m * twoTo (e - f) % (n * twoTo (f - e))) (min e f)

/-- The square root.  The significand is first extended to at least 109 bits, by so many that an
even exponent is left.  When that integer is no square, the root lies strictly between two whole
numbers, below the last bit that is kept, and any point between them rounds alike; the middle is
taken. -/
def sqrt : Binary64 → Binary64
  | .nan => .nan
  | .infinity s => if s then .nan else .infinity false
  | .finite s m e h =>
      if m = 0 then .finite s m e h
      else if s then .nan
      else
        let square := m * twoTo (108 + e % 2)
        let root := square.sqrt
        let exponent := (e - e % 2 + oneExponent - 108) / 2
        if root * root = square then ofScaled false root exponent
        else ofScaled false (2 * root + 1) (exponent - 1)

/-- The greatest whole number that is not above.  A number below the exponent of one has a
fraction, for its significand is odd. -/
def floor : Binary64 → Binary64
  | .nan => .nan
  | .infinity s => .infinity s
  | .finite s m e h =>
      if oneExponent ≤ e then .finite s m e h
      else ofScaled s (m >>> (oneExponent - e) + s.toNat) oneExponent

/-- The least whole number that is not below. -/
def ceil : Binary64 → Binary64
  | .nan => .nan
  | .infinity s => .infinity s
  | .finite s m e h =>
      if oneExponent ≤ e then .finite s m e h
      else ofScaled s (m >>> (oneExponent - e) + (!s).toNat) oneExponent

instance : Add Binary64 := ⟨add⟩
instance : Sub Binary64 := ⟨sub⟩
instance : Mul Binary64 := ⟨mul⟩
instance : Neg Binary64 := ⟨neg⟩

end Operations

section Order

/-- Numerical equality: both zeros are equal, not-a-number equals nothing. -/
def equal : Binary64 → Binary64 → Bool
  | .infinity s, .infinity t => s == t
  | .finite s m e _, .finite t n f _ => m == n && e == f && (s == t || m == 0)
  | _, _ => false

/-- Order of the magnitudes `m · 2 ^ e` and `n · 2 ^ f`. -/
def lessMagnitude (m e n f : Nat) : Bool :=
  decide (m * twoTo (e - f) < n * twoTo (f - e))

/-- Numerical order; not-a-number is below and above nothing. -/
def less : Binary64 → Binary64 → Bool
  | .nan, _ => false
  | _, .nan => false
  | .infinity s, .infinity t => s && !t
  | .infinity s, .finite .. => s
  | .finite .., .infinity t => !t
  | .finite s m e _, .finite t n f _ =>
      match s, t with
      | false, false => lessMagnitude m e n f
      | true, true => lessMagnitude n f m e
      | true, false => m != 0 || n != 0
      | false, true => false

/-- Below or equal. -/
def lessEq (a b : Binary64) : Bool := a.less b || a.equal b

end Order

section Truncation

/-- The whole part of the magnitude of a finite number; zero for what is not finite. -/
def wholePart (x : Binary64) : Nat := x.numerator / x.denominator

/-- The whole part as a natural number of at most `limit`: not-a-number and negative numbers give
zero, what is too large gives `limit`. -/
def toNatClamped (limit : Nat) : Binary64 → Nat
  | .nan => 0
  | .infinity s => if s then 0 else limit
  | .finite s m e h => if s then 0 else min (finite s m e h).wholePart limit

/-- The greatest integer that is not above a finite number; zero for what is not finite. -/
def floorInt (x : Binary64) : Int :=
  let floor := x.floor
  if floor.isNegative then -(floor.wholePart : Int) else floor.wholePart

end Truncation

section Platform

/-- The machine number with the same bit pattern. -/
def toFloat (x : Binary64) : Float := Float.ofBits x.toBits

/-- The number with the bit pattern of a machine number. -/
def ofFloat (x : Float) : Binary64 := ofBits x.toBits

/-- The first number raised to the second. -/
def pow (a b : Binary64) : Binary64 := ofFloat (a.toFloat.pow b.toFloat)

/-- The logarithm to base ten. -/
def log10 (x : Binary64) : Binary64 := ofFloat x.toFloat.log10

end Platform

section Laws

/-- Magnitudes brought to the lower of their exponents compare as the magnitudes do. -/
theorem mul_twoTo_lt_iff (m e n f : Nat) :
    m * twoTo (e - f) < n * twoTo (f - e) ↔ m * Nat.pow 2 e < n * Nat.pow 2 f := by
  rw [twoTo_eq, twoTo_eq]
  have hpos : 0 < Nat.pow 2 (min e f) := Nat.pow_pos Nat.two_pos
  have hleft : m * Nat.pow 2 e = m * Nat.pow 2 (e - f) * Nat.pow 2 (min e f) := by
    rw [Nat.mul_assoc]
    congr 1
    have hsum : e - f + min e f = e := by omega
    exact (congrArg (Nat.pow 2) hsum).symm.trans (Nat.pow_add 2 _ _)
  have hright : n * Nat.pow 2 f = n * Nat.pow 2 (f - e) * Nat.pow 2 (min e f) := by
    rw [Nat.mul_assoc]
    congr 1
    have hsum : f - e + min e f = f := by omega
    exact (congrArg (Nat.pow 2) hsum).symm.trans (Nat.pow_add 2 _ _)
  rw [hleft, hright]
  exact (Nat.mul_lt_mul_right hpos).symm

/-- On finite numbers the order is the order of the values. -/
theorem less_iff_units_lt {a b : Binary64} (ha : a.isFinite) (hb : b.isFinite) :
    a.less b ↔ a.units < b.units := by
  match a, b with
  | .finite s m e h, .finite t n f k =>
      have hm : m ≠ 0 → 0 < m * Nat.pow 2 e := fun hne =>
        Nat.mul_pos (Nat.pos_of_ne_zero hne) (Nat.pow_pos Nat.two_pos)
      have hn : n ≠ 0 → 0 < n * Nat.pow 2 f := fun hne =>
        Nat.mul_pos (Nat.pos_of_ne_zero hne) (Nat.pow_pos Nat.two_pos)
      cases s <;> cases t
      · simp only [less, lessMagnitude, units, isNegative, magnitude, decide_eq_true_eq,
          mul_twoTo_lt_iff]
        simp only [Bool.false_eq_true, if_false]
        omega
      · simp only [less, units, isNegative, magnitude]
        simp only [Bool.false_eq_true, if_false, if_true, false_iff]
        omega
      · simp only [less, units, isNegative, magnitude, Bool.or_eq_true, bne_iff_ne]
        simp only [Bool.false_eq_true, if_false, if_true]
        by_cases hm0 : m = 0 <;> by_cases hn0 : n = 0
        · subst hm0 hn0
          simp
        · have := hn hn0
          omega
        · have := hm hm0
          omega
        · have := hm hm0
          omega
      · simp only [less, lessMagnitude, units, isNegative, magnitude, decide_eq_true_eq,
          mul_twoTo_lt_iff]
        simp only [if_true]
        omega
  | .nan, _ => cases ha
  | .infinity _, _ => cases ha
  | .finite .., .nan => cases hb
  | .finite .., .infinity _ => cases hb

end Laws

end Binary64

end ErrorFree
