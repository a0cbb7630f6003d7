import ErrorFree.Proofs.Decimal.Shortest

/-!
# Numerals

**Grammar.**  A numeral is an optional minus, whole digits, and optional digits after a point, which
do not end with a zero.  It is plain, or it has one whole digit and an exponent: the mark `E`, a
sign, and two digits or more, without zeros in front beyond the two.

**Meaning.**  `text` is how a numeral is written, `magnitude` the exact number that it stands for,
its sign left out.

**Results.**
* `Numeral.text_injective`: a text is read in one way only.
* `Numeral.magnitude_eq`: the magnitude is the value of the decimal with all of the digits.
-/

namespace ErrorFree

namespace Number

section Grammar

/-- The exponent of a numeral. -/
@[ext]
structure Exponent where
  negative : Bool
  digits : List Char
  isDigit : ∀ c ∈ digits, c.isDigit = true
  two_le : 2 ≤ digits.length
  unpadded : 2 < digits.length → digits.head? ≠ some '0'

/-- A numeral, plain or with an exponent. -/
@[ext]
structure Numeral where
  negative : Bool
  whole : List Char
  fraction : List Char
  power : Option Exponent
  whole_ne_nil : whole ≠ []
  isDigit_whole : ∀ c ∈ whole, c.isDigit = true
  isDigit_fraction : ∀ c ∈ fraction, c.isDigit = true
  fraction_last : fraction.getLast? ≠ some '0'
  single : power ≠ none → whole.length = 1

/-- A minus in front of what is negative. -/
def signText (negative : Bool) : List Char := if negative then ['-'] else []

/-- The digits after the point, if there are any, with it. -/
def fractionText : List Char → List Char
  | [] => []
  | fraction => '.' :: fraction

/-- The exponent, if there is one, with its mark and sign. -/
def powerText : Option Exponent → List Char
  | none => []
  | some e => 'E' :: (if e.negative then '-' else '+') :: e.digits

/-- A numeral as it is written. -/
def Numeral.text (n : Numeral) : List Char :=
  signText n.negative ++ (n.whole ++ (fractionText n.fraction ++ powerText n.power))

/-- The number that digits stand for. -/
def ofDigits (digits : List Char) : Nat := Nat.ofDigitChars 10 digits 0

/-- The power of ten of a numeral, zero if it is plain. -/
def powerOf : Option Exponent → Int
  | none => 0
  | some e => if e.negative then -(ofDigits e.digits : Int) else ofDigits e.digits

/-- The exact number that a numeral stands for, its sign left out. -/
def Numeral.magnitude (n : Numeral) : ℚ :=
  (ofDigits n.whole + ofDigits n.fraction / 10 ^ n.fraction.length) * 10 ^ powerOf n.power

/-- The decimal with all digits of a numeral. -/
def Numeral.decimal (n : Numeral) : Decimal :=
  ⟨ofDigits (n.whole ++ n.fraction), powerOf n.power - n.fraction.length⟩

end Grammar

section Digits

variable {a b rest tail : List Char}

theorem fractionText_of_ne_nil (h : a ≠ []) : fractionText a = '.' :: a := by
  cases a with
  | nil => exact absurd rfl h
  | cons c a => rfl

/-- What follows does not go on with a digit. -/
def Stops (rest : List Char) : Prop := ∀ c ∈ rest.head?, c.isDigit = false

theorem takeWhile_digits (ha : ∀ c ∈ a, c.isDigit = true) (hrest : Stops rest) :
    (a ++ rest).takeWhile Char.isDigit = a := by
  rw [List.takeWhile_append_of_pos ha]
  cases rest with
  | nil => exact List.append_nil a
  | cons c rest =>
      have hc : ¬ c.isDigit = true := by
        rw [hrest c rfl]
        exact Bool.false_ne_true
      rw [List.takeWhile_cons_of_neg hc, List.append_nil]

theorem dropWhile_digits (ha : ∀ c ∈ a, c.isDigit = true) (hrest : Stops rest) :
    (a ++ rest).dropWhile Char.isDigit = rest := by
  rw [List.dropWhile_append_of_pos ha]
  cases rest with
  | nil => rfl
  | cons c rest =>
      have hc : ¬ c.isDigit = true := by
        rw [hrest c rfl]
        exact Bool.false_ne_true
      rw [List.dropWhile_cons_of_neg hc]

/-- Digits end where something else begins. -/
theorem digits_append_inj (ha : ∀ c ∈ a, c.isDigit = true) (hb : ∀ c ∈ b, c.isDigit = true)
    (hrest : Stops rest) (htail : Stops tail) (h : a ++ rest = b ++ tail) :
    a = b ∧ rest = tail := by
  constructor
  · rw [← takeWhile_digits ha hrest, h, takeWhile_digits hb htail]
  · rw [← dropWhile_digits ha hrest, h, dropWhile_digits hb htail]

theorem stops_powerText (p : Option Exponent) : Stops (powerText p) := by
  cases p with
  | none =>
      intro c hc
      cases hc
  | some e =>
      rintro c ⟨⟩
      rfl

theorem stops_fractionText (fraction : List Char) (p : Option Exponent) :
    Stops (fractionText fraction ++ powerText p) := by
  cases fraction with
  | nil => exact stops_powerText p
  | cons c fraction =>
      rintro c ⟨⟩
      rfl

end Digits

section Unambiguous

theorem powerText_injective : Function.Injective powerText := by
  intro p q h
  cases p with
  | none =>
      cases q with
      | none => rfl
      | some f => cases h
  | some e =>
      cases q with
      | none => cases h
      | some f =>
          simp only [powerText, List.cons.injEq, true_and] at h
          obtain ⟨hsign, hdigits⟩ := h
          congr 1
          apply Exponent.ext _ hdigits
          cases he : e.negative <;> cases hf : f.negative <;> simp [he, hf] at hsign ⊢

theorem fraction_inj {f g : List Char} {p q : Option Exponent} (hf : ∀ c ∈ f, c.isDigit = true)
    (hg : ∀ c ∈ g, c.isDigit = true)
    (h : fractionText f ++ powerText p = fractionText g ++ powerText q) : f = g ∧ p = q := by
  cases f with
  | nil =>
      cases g with
      | nil => exact ⟨rfl, powerText_injective h⟩
      | cons d g => cases p <;> cases h
  | cons c f =>
      cases g with
      | nil => cases q <;> cases h
      | cons d g =>
          have htail := digits_append_inj hf hg (stops_powerText p) (stops_powerText q)
            (List.cons.inj h).2
          exact ⟨htail.1, powerText_injective htail.2⟩

/-- A digit of a numeral stands behind its sign. -/
theorem Numeral.exists_digit (n : Numeral) :
    ∃ c rest, c.isDigit = true ∧
      n.whole ++ (fractionText n.fraction ++ powerText n.power) = c :: rest := by
  obtain ⟨c, whole, hwhole⟩ := List.exists_cons_of_ne_nil n.whole_ne_nil
  refine ⟨c, whole ++ (fractionText n.fraction ++ powerText n.power), n.isDigit_whole c ?_, ?_⟩
  · rw [hwhole]
    exact List.mem_cons_self
  · rw [hwhole]
    rfl

/-- A numeral consists of digits and marks. -/
theorem Numeral.mem_text (n : Numeral) {c : Char} (h : c ∈ n.text) :
    c.isDigit = true ∨ c ∈ ['-', '.', 'E', '+'] := by
  simp only [Numeral.text, List.mem_append] at h
  rcases h with hsign | hwhole | hfraction | hpower
  · right
    cases hn : n.negative with
    | true =>
        rw [hn] at hsign
        obtain rfl := List.mem_singleton.mp hsign
        decide
    | false =>
        rw [hn] at hsign
        cases hsign
  · left
    exact n.isDigit_whole c hwhole
  · by_cases hnil : n.fraction = []
    · rw [hnil] at hfraction
      cases hfraction
    · rw [fractionText_of_ne_nil hnil, List.mem_cons] at hfraction
      rcases hfraction with rfl | hfraction
      · right
        decide
      · left
        exact n.isDigit_fraction c hfraction
  · cases hp : n.power with
    | none =>
        rw [hp] at hpower
        cases hpower
    | some e =>
        rw [hp, powerText, List.mem_cons, List.mem_cons] at hpower
        rcases hpower with rfl | rfl | hdigits
        · right
          decide
        · right
          cases e.negative <;> decide
        · left
          exact e.isDigit c hdigits

theorem Numeral.notMem_text (n : Numeral) {c : Char} (hdigit : c.isDigit = false)
    (hmark : c ∉ ['-', '.', 'E', '+']) : c ∉ n.text := by
  intro hmem
  rcases n.mem_text hmem with h | h
  · rw [hdigit] at h
    cases h
  · exact hmark h

theorem Numeral.any_isDigit (n : Numeral) : n.text.any Char.isDigit = true := by
  obtain ⟨c, rest, hc, htext⟩ := n.exists_digit
  rw [Numeral.text, htext, List.any_append, List.any_cons, hc, Bool.true_or, Bool.or_true]

theorem Numeral.head_text (n : Numeral) : n.text.head? = some '-' ↔ n.negative = true := by
  obtain ⟨c, rest, hc, htext⟩ := n.exists_digit
  rw [Numeral.text, htext]
  cases n.negative with
  | true => simp [signText]
  | false =>
      simp only [signText, Bool.false_eq_true, if_false, List.nil_append, List.head?_cons,
        Option.some.injEq, iff_false]
      rintro rfl
      cases hc

/-- **A text is read in one way only.** -/
theorem Numeral.text_injective : Function.Injective Numeral.text := by
  intro m n h
  have hsign : m.negative = n.negative := by
    rw [Bool.eq_iff_iff, ← m.head_text, ← n.head_text, h]
  rw [Numeral.text, Numeral.text, hsign] at h
  obtain ⟨hwhole, hrest⟩ := digits_append_inj m.isDigit_whole n.isDigit_whole
    (stops_fractionText _ _) (stops_fractionText _ _) (List.append_cancel_left h)
  obtain ⟨hfraction, hpower⟩ := fraction_inj m.isDigit_fraction n.isDigit_fraction hrest
  exact Numeral.ext hsign hwhole hfraction hpower

end Unambiguous

section Magnitude

theorem ofDigits_append (a b : List Char) :
    ofDigits (a ++ b) = 10 ^ b.length * ofDigits a + ofDigits b := by
  rw [ofDigits, Nat.ofDigitChars_append, Nat.ofDigitChars_eq_ofDigitChars_zero]
  rfl

/-- The magnitude is the value of the decimal with all of the digits. -/
theorem Numeral.magnitude_eq (n : Numeral) : n.magnitude = n.decimal.value := by
  have hten : (10 : ℚ) ≠ 0 := by norm_num
  rw [magnitude, decimal, Decimal.value, ofDigits_append, zpow_sub₀ hten, zpow_natCast]
  push_cast
  field_simp

end Magnitude

end Number

end ErrorFree
