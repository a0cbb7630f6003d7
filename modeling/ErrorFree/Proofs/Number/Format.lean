import ErrorFree.Number.Text
import ErrorFree.Proofs.Number.Numeral

/-!
# The text of a number is exact

**Layouts.**  Each layout of a decimal is a numeral of its value: the positional one is plain
(`exists_positional`), the other one has an exponent (`exists_scientific`).

**Ranges.**  `isPositional_iff`: the two limits between the layouts are those of the exact values
`1 / 10 ^ 4` and `10 ^ 15`; the lower one is no number, but no number lies between it and what it is
rounded to.

**Result.**  `format_lossless`: the text of a finite number is one numeral, plain or not by the size
of the number, and the exact number that it stands for is rounded to that number and to no other; so
different numbers have different texts.
-/

namespace ErrorFree

namespace Number

open Binary64 (Rounds)

section Digits

theorem isDigit_toDigits (n : Nat) : ∀ c ∈ Nat.toDigits 10 n, c.isDigit = true :=
  fun _ hc => Nat.isDigit_of_mem_toDigits (by decide) (Nat.le_refl 10) hc

theorem isDigit_replicate (k : Nat) : ∀ c ∈ List.replicate k '0', c.isDigit = true := by
  intro c hc
  obtain rfl := List.eq_of_mem_replicate hc
  rfl

theorem isDigit_append {a b : List Char} (ha : ∀ c ∈ a, c.isDigit = true)
    (hb : ∀ c ∈ b, c.isDigit = true) : ∀ c ∈ a ++ b, c.isDigit = true := by
  intro c hc
  rcases List.mem_append.mp hc with hc | hc
  · exact ha c hc
  · exact hb c hc

theorem getLast?_toDigits (n : Nat) :
    (Nat.toDigits 10 n).getLast? = some (Nat.digitChar (n % 10)) := by
  rw [Nat.toDigits_eq_if (by decide)]
  split
  · rename_i hlt
    rw [Nat.mod_eq_of_lt hlt]
    rfl
  · exact List.getLast?_concat

theorem getLast?_toDigits_ne_zero {n : Nat} (h : n % 10 ≠ 0) :
    (Nat.toDigits 10 n).getLast? ≠ some '0' := by
  rw [getLast?_toDigits, Ne, Option.some.injEq, Nat.digitChar_eq_zero]
  exact h

/-- The digits of a number other than zero do not begin with a zero. -/
theorem head?_toDigits_ne_zero {n : Nat} (h : n ≠ 0) : (Nat.toDigits 10 n).head? ≠ some '0' := by
  induction n using Nat.strongRecOn with
  | _ n ih =>
      rcases Nat.lt_or_ge n 10 with hlt | hge
      · rw [Nat.toDigits_of_lt_base hlt, List.head?_cons, Ne, Option.some.injEq,
          Nat.digitChar_eq_zero]
        exact h
      · rw [Nat.toDigits_of_base_le (by decide) hge,
          List.head?_append_of_ne_nil _ Nat.toDigits_ne_nil]
        exact ih (n / 10) (by omega) (by omega)

theorem ofDigits_toDigits (n : Nat) : ofDigits (Nat.toDigits 10 n) = n :=
  Nat.ofDigitChars_ten_toDigits

theorem ofDigits_replicate (k : Nat) : ofDigits (List.replicate k '0') = 0 := by
  rw [ofDigits, Nat.ofDigitChars_replicate_zero, Nat.mul_zero]

end Digits

section Layouts

variable {d : Decimal}

/-- The parts of the positional layout. -/
theorem positional_parts (h : d.digits % 10 ≠ 0 ∨ 0 ≤ d.exponent) :
    ∃ whole fraction : List Char, d.positional [] = whole ++ fractionText fraction ∧ whole ≠ [] ∧
      (∀ c ∈ whole ++ fraction, c.isDigit = true) ∧ fraction.getLast? ≠ some '0' ∧
      Decimal.value ⟨ofDigits (whole ++ fraction), -(fraction.length : Int)⟩ = d.value := by
  have hdigits : ∀ c ∈ d.digitChars, c.isDigit = true := isDigit_toDigits _
  have hvalue : ofDigits d.digitChars = d.digits := ofDigits_toDigits _
  have hne : d.digitChars ≠ [] := Nat.toDigits_ne_nil
  unfold Decimal.positional
  dsimp only
  split
  · obtain ⟨k, hk⟩ := Int.eq_ofNat_of_zero_le (by omega : 0 ≤ d.exponent)
    refine ⟨d.digitChars ++ List.replicate k '0', [], ?_, ?_, ?_, ?_, ?_⟩
    · rw [hk, Int.toNat_natCast]
      rfl
    · exact List.append_ne_nil_of_left_ne_nil hne _
    · rw [List.append_nil]
      exact isDigit_append hdigits (isDigit_replicate k)
    · intro hlast
      cases hlast
    · rw [List.append_nil, ofDigits_append, ofDigits_replicate, hvalue, List.length_replicate,
        Decimal.value, Decimal.value, hk]
      simp [mul_comm]
  · obtain ⟨k, hk⟩ : ∃ k : Nat, d.exponent = -(k : Int) := ⟨(-d.exponent).toNat, by omega⟩
    have hlast : d.digitChars.getLast? ≠ some '0' :=
      getLast?_toDigits_ne_zero (h.resolve_right (by omega))
    rw [hk, neg_neg, Int.toNat_natCast]
    split
    · rename_i hlt
      obtain ⟨j, hj⟩ : ∃ j, d.digitChars.length - k = j := ⟨_, rfl⟩
      have hdrop : d.digitChars.drop j ≠ [] := by
        rw [Ne, List.drop_eq_nil_iff]
        omega
      refine ⟨d.digitChars.take j, d.digitChars.drop j, ?_, ?_, ?_, ?_, ?_⟩
      · rw [hj, fractionText_of_ne_nil hdrop]
      · rw [Ne, List.take_eq_nil_iff]
        rintro (hzero | hnil)
        · omega
        · exact hne hnil
      · rwa [List.take_append_drop]
      · rwa [List.getLast?_drop, if_neg (by omega)]
      · have hlength : d.digitChars.length - j = k := by omega
        rw [List.take_append_drop, hvalue, List.length_drop, hlength, ← hk]
    · rename_i hge
      obtain ⟨zeros, hzeros⟩ : ∃ zeros, List.replicate (k - d.digitChars.length) '0' = zeros :=
        ⟨_, rfl⟩
      refine ⟨['0'], zeros ++ d.digitChars, ?_, ?_, ?_, ?_, ?_⟩
      · rw [fractionText_of_ne_nil (List.append_ne_nil_of_right_ne_nil _ hne), hzeros]
        rfl
      · exact List.cons_ne_nil _ _
      · rw [← List.append_assoc]
        refine isDigit_append ?_ hdigits
        exact hzeros ▸ isDigit_replicate (k - d.digitChars.length + 1)
      · rwa [List.getLast?_append_of_ne_nil _ hne]
      · have hlength : zeros.length + d.digitChars.length = k := by
          rw [← hzeros, List.length_replicate]
          omega
        have hzero : ofDigits ('0' :: zeros) = 0 :=
          hzeros ▸ ofDigits_replicate (k - d.digitChars.length + 1)
        rw [← List.append_assoc, ofDigits_append, List.singleton_append, hzero, Nat.mul_zero,
          Nat.zero_add, hvalue, List.length_append, hlength, ← hk]

/-- **The positional layout is a plain numeral.** -/
theorem exists_positional (s : Bool) (h : d.digits % 10 ≠ 0 ∨ 0 ≤ d.exponent) :
    ∃ n : Numeral, n.negative = s ∧ n.power = none ∧ n.text = signText s ++ d.positional [] ∧
      n.magnitude = d.value := by
  obtain ⟨whole, fraction, htext, hne, hdigits, hlast, hvalue⟩ := positional_parts h
  refine ⟨⟨s, whole, fraction, none, hne, fun c hc => hdigits c (List.mem_append_left _ hc),
    fun c hc => hdigits c (List.mem_append_right _ hc), hlast, fun h => absurd rfl h⟩, rfl, rfl,
    ?_, ?_⟩
  · rw [Numeral.text, htext, powerText, List.append_nil]
  · rw [Numeral.magnitude_eq, Numeral.decimal, powerOf, Int.zero_sub, hvalue]

/-- The exponent of the layout with one. -/
theorem exists_exponent (e : Int) :
    ∃ p : Exponent, powerText (some p) = exponentStyle.render e ∧ powerOf (some p) = e := by
  have hpositive : 0 < (Nat.toDigits 10 e.natAbs).length := Nat.length_toDigits_pos
  refine ⟨⟨decide (e < 0), List.replicate (2 - (Nat.toDigits 10 e.natAbs).length) '0' ++
    Nat.toDigits 10 e.natAbs, isDigit_append (isDigit_replicate _) (isDigit_toDigits _), ?_, ?_⟩,
    ?_, ?_⟩
  · rw [List.length_append, List.length_replicate]
    omega
  · intro hlong
    rw [List.length_append, List.length_replicate] at hlong
    have hpad : 2 - (Nat.toDigits 10 e.natAbs).length = 0 := by omega
    rw [hpad]
    apply head?_toDigits_ne_zero
    intro hzero
    rw [hzero] at hlong
    simp at hlong
  · simp [powerText, Decimal.ExponentStyle.render, exponentStyle]
  · simp only [powerOf, ofDigits_append, ofDigits_replicate, ofDigits_toDigits, decide_eq_true_eq]
    split <;> omega

/-- **The layout with an exponent is a numeral with one.** -/
theorem exists_scientific (s : Bool) (h : d.digits % 10 ≠ 0) :
    ∃ n : Numeral, n.negative = s ∧ n.power ≠ none ∧
      n.text = signText s ++ d.scientific exponentStyle ∧ n.magnitude = d.value := by
  obtain ⟨p, htext, hpower⟩ := exists_exponent d.leadingExponent
  obtain ⟨c, rest, hchars⟩ := List.exists_cons_of_ne_nil
    (Nat.toDigits_ne_nil : Nat.toDigits 10 d.digits ≠ [])
  have hdigits : ∀ b ∈ c :: rest, b.isDigit = true := hchars ▸ isDigit_toDigits d.digits
  have hlast : (c :: rest).getLast? ≠ some '0' := hchars ▸ getLast?_toDigits_ne_zero h
  have hvalue : ofDigits (c :: rest) = d.digits := hchars ▸ ofDigits_toDigits d.digits
  have hlayout : d.scientific exponentStyle = c :: fractionText rest ++ powerText (some p) := by
    rw [Decimal.scientific, Decimal.digitChars, hchars, htext]
    cases rest <;> rfl
  have hleading : d.leadingExponent - rest.length = d.exponent := by
    rw [Decimal.leadingExponent, Decimal.digitChars, hchars, List.length_cons]
    omega
  have hone : ∀ b ∈ [c], b.isDigit = true := by
    intro b hb
    exact hdigits b (List.mem_cons.mpr (Or.inl (List.mem_singleton.mp hb)))
  have hlast : rest.getLast? ≠ some '0' := by
    cases rest with
    | nil =>
        intro hnil
        cases hnil
    | cons b rest => rwa [List.getLast?_cons_cons] at hlast
  refine ⟨⟨s, [c], rest, some p, List.cons_ne_nil _ _, hone,
    fun b hb => hdigits b (List.mem_cons_of_mem c hb), hlast, fun _ => rfl⟩, rfl,
    Option.some_ne_none p, ?_, ?_⟩
  · exact congrArg (signText s ++ ·) hlayout.symm
  · rw [Numeral.magnitude_eq, Numeral.decimal, hpower, hleading, List.singleton_append, hvalue]

end Layouts

section Ranges

variable {x : Binary64}

theorem positionalFrom_eq :
    positionalFrom = .finite false 7378697629483821 1008 (by decide) := by
  decide +kernel

theorem positionalBelow_eq : positionalBelow = Binary64.ofNat 1000000000000000 := by
  decide +kernel

theorem positionalFrom_lessEq_iff (hx : x.isFinite = true) :
    positionalFrom.lessEq x.abs = true ↔ 1 / 10 ^ 4 ≤ |x.value| := by
  have hfinite : positionalFrom.isFinite = true := by
    rw [positionalFrom_eq]
    rfl
  have hvalue : positionalFrom.value = 7378697629483821 / 2 ^ 66 := by
    rw [positionalFrom_eq, Binary64.value_finite_fraction _ (by decide)]
    rfl
  have hrounds : Rounds false (1 / 10 ^ 4) positionalFrom := by
    have hdecimal := (Decimal.toBinary64_eq_iff_rounds hfinite ⟨1, -4⟩).mp rfl
    rwa [Decimal.value, Nat.cast_one, one_mul, zpow_neg, ← one_div] at hdecimal
  have hup : 1 / 10 ^ 4 ≤ |positionalFrom.value| := by
    rw [hvalue]
    norm_num
  have habs : |positionalFrom.value| = positionalFrom.value := by
    rw [hvalue, abs_of_pos (by positivity)]
  rw [Binary64.lessEq_iff_value_le hfinite (Binary64.isFinite_abs x ▸ hx),
    Binary64.value_abs hx, ← habs]
  exact ⟨hup.trans, hrounds.le_of_le hup hx⟩

theorem less_positionalBelow_iff (hx : x.isFinite = true) :
    x.abs.less positionalBelow = true ↔ |x.value| < 10 ^ 15 := by
  have hsmall : 1000000000000000 < Binary64.twoTo 53 := by decide
  rw [positionalBelow_eq, Binary64.less_iff_value_lt (Binary64.isFinite_abs x ▸ hx)
    (Binary64.isFinite_ofNat hsmall), Binary64.value_abs hx, Binary64.value_ofNat hsmall]
  norm_num

/-- **The positional range is that of the exact values.** -/
theorem isPositional_iff (hx : x.isFinite = true) :
    isPositional x = true ↔ x.value = 0 ∨ 1 / 10 ^ 4 ≤ |x.value| ∧ |x.value| < 10 ^ 15 := by
  rw [isPositional, Bool.or_eq_true, Bool.and_eq_true, beq_iff_eq,
    Binary64.numerator_eq_zero_iff hx, positionalFrom_lessEq_iff hx, less_positionalBelow_iff hx]

end Ranges

section Texts

variable {x y : Binary64}

/-- The text of a finite number is a numeral that is rounded to the number. -/
theorem exists_numeral (hx : x.isFinite = true) :
    ∃ n : Numeral, n.text = toChars x ∧ (n.power = none ↔ isPositional x = true) ∧
      Rounds n.negative n.magnitude x := by
  have hrounds := Decimal.rounds_shortest .up hx
  have htext : toChars x = signText x.isNegative ++
      if isPositional x then (Decimal.shortest .up x).positional []
      else (Decimal.shortest .up x).scientific exponentStyle := by
    obtain ⟨s, m, e, h, rfl⟩ := Binary64.exists_parts hx
    rfl
  rw [htext]
  by_cases hpositional : isPositional x = true
  · have hlayout : (Decimal.shortest .up x).digits % 10 ≠ 0 ∨
        0 ≤ (Decimal.shortest .up x).exponent := by
      by_cases hzero : x.numerator = 0
      · right
        rw [Decimal.shortest, if_pos hzero]
      · left
        exact Decimal.shortest_mod_ten .up hx hzero
    obtain ⟨n, hsign, hpower, hn, hmagnitude⟩ := exists_positional x.isNegative hlayout
    refine ⟨n, ?_, ?_, ?_⟩
    · rw [hn, if_pos hpositional]
    · exact iff_of_true hpower hpositional
    · rwa [hsign, hmagnitude]
  · have hne : x.numerator ≠ 0 := by
      intro hzero
      rw [isPositional, hzero] at hpositional
      exact hpositional rfl
    obtain ⟨n, hsign, hpower, hn, hmagnitude⟩ := exists_scientific x.isNegative
      (Decimal.shortest_mod_ten .up hx hne)
    refine ⟨n, ?_, ?_, ?_⟩
    · rw [hn, if_neg hpositional]
    · exact iff_of_false hpower hpositional
    · rwa [hsign, hmagnitude]

theorem toChars_any_isDigit (x : Binary64) : (toChars x).any Char.isDigit = x.isFinite := by
  cases x with
  | nan => decide
  | infinity s => cases s <;> decide
  | finite s m e h =>
      obtain ⟨n, htext, -, -⟩ := exists_numeral (x := .finite s m e h) rfl
      rw [← htext]
      exact n.any_isDigit

/-- Different numbers have different texts. -/
theorem toChars_injective : Function.Injective toChars := by
  intro x y h
  have hfinite : x.isFinite = y.isFinite := by
    rw [← toChars_any_isDigit, ← toChars_any_isDigit, h]
  cases hx : x.isFinite with
  | true =>
      obtain ⟨m, hm, -, hrounds⟩ := exists_numeral hx
      obtain ⟨n, hn, -, hrounds'⟩ := exists_numeral (hfinite.symm.trans hx)
      obtain rfl : m = n := Numeral.text_injective (by rw [hm, hn, h])
      exact hrounds.unique hrounds'
  | false =>
      rw [hx] at hfinite
      revert h
      cases x with
      | finite => cases hx
      | nan =>
          cases y with
          | finite => cases hfinite
          | nan => exact fun _ => rfl
          | infinity t => cases t <;> decide
      | infinity s =>
          cases y with
          | finite => cases hfinite
          | nan => cases s <;> decide
          | infinity t => cases s <;> cases t <;> decide

/-- **The text of a number loses nothing.**  The text of a finite number is read as one numeral,
plain exactly for zero and from `0.0001` up to `10 ^ 15`, and what it stands for is rounded to the
number and to no other.  No two numbers have one text. -/
theorem format_lossless :
    (∀ x : Binary64, x.isFinite = true →
      ∃ n : Numeral, (∀ m : Numeral, m.text = (format x).toList ↔ m = n) ∧
        (n.power = none ↔ x.value = 0 ∨ 1 / 10 ^ 4 ≤ |x.value| ∧ |x.value| < 10 ^ 15) ∧
        ∀ y : Binary64, Rounds n.negative n.magnitude y ↔ y = x) ∧
    ∀ x y : Binary64, format x = format y → x = y := by
  constructor
  · intro x hx
    obtain ⟨n, htext, hpower, hrounds⟩ := exists_numeral hx
    refine ⟨n, ?_, ?_, ?_⟩
    · intro m
      rw [format, String.toList_ofList, ← htext]
      exact Numeral.text_injective.eq_iff
    · rw [hpower, isPositional_iff hx]
    · intro y
      constructor
      · intro hy
        exact hy.unique hrounds
      · rintro rfl
        exact hrounds
  · intro x y h
    exact toChars_injective (String.ofList_injective h)

/-- The negative number closest to zero has one bit and is written with one digit. -/
theorem format_lossless_subnormal :
    let x := Binary64.finite true 1 0 (by decide)
    x.isFinite = true ∧ format x = "-5E-324" ∧
      ∃ n : Numeral, (∀ m : Numeral, m.text = "-5E-324".toList ↔ m = n) ∧
        (n.power = none ↔ x.value = 0 ∨ 1 / 10 ^ 4 ≤ |x.value| ∧ |x.value| < 10 ^ 15) ∧
        ∀ y : Binary64, Rounds n.negative n.magnitude y ↔ y = x := by
  intro x
  have htext : format x = "-5E-324" := by decide +kernel
  have hlossless := format_lossless.1 x rfl
  rw [htext] at hlossless
  exact ⟨rfl, htext, hlossless⟩

end Texts

end Number

end ErrorFree
