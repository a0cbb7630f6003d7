import ErrorFree.Proofs.Number.Garbled
import ErrorFree.Proofs.Number.ReadBack
import Mathlib.Computability.RegularExpressions
import Mathlib.Data.List.TakeWhile
import Mathlib.Tactic.IntervalCases

/-!
# What is kept of a line

**Grammars.**  `plainGrammar` is an optional minus, digits, and an optional point with digits after
it; each of the digits may be missing.  `strictGrammar` is what a strict reading of a number accepts:
also a plus, an exponent, and the words for infinity and for what is no number, but nothing without
a digit or a word.

**Plain texts.**  `Plain` has the parts of a text of the first grammar.  `scan` finds them in any text
without a state: the sign by the first character that can belong to a number, the whole digits in
front of the first point, the others behind it.

**Results.**
* `kept_eq`: what is kept, character by character, is the plain text of these parts.
* `strict?_text`: a plain text with a digit is accepted by the strict reading, as the number that is
  read leniently.
* `kept_reads`: hence a line with a digit never falls back to zero, and only what is kept of a
  line matters.
-/

namespace ErrorFree

namespace Number

section Grammars

open RegularExpression

/-- A decimal digit. -/
def digit : RegularExpression Char := ("0123456789".toList.map char).sum

/-- Something that may be left out. -/
def optional (r : RegularExpression Char) : RegularExpression Char := 1 + r

/-- An optional minus, digits, and an optional point with digits. -/
def plainGrammar : RegularExpression Char :=
  optional (char '-') * (digit.star * optional (char '.' * digit.star))

/-- A letter of either case. -/
def letter (c : Char) : RegularExpression Char := char c.toLower + char c.toUpper

/-- A name in any mixture of cases. -/
def anyCase (name : String) : RegularExpression Char := (name.toList.map letter).prod

/-- A plus, a minus, or neither. -/
def anySign : RegularExpression Char := optional (char '+' + char '-')

/-- Digits with an optional point, before or after which the digits may be missing. -/
def pointedDigits : RegularExpression Char :=
  digit * digit.star + digit * digit.star * (char '.' * digit.star) +
    digit.star * (char '.' * (digit * digit.star))

/-- The texts that a strict reading accepts. -/
def strictGrammar : RegularExpression Char :=
  anySign * (anyCase "inf" + anyCase "infinity" + anyCase "nan" +
    pointedDigits * optional (letter 'e' * (anySign * (digit * digit.star))))

/-- The value of an exponent, read after its mark. -/
def exponentOf (text : List Char) : Int :=
  let n : Int := ofDigits (text.filter Char.isDigit)
  if text.head? = some '-' then -n else n

/-- The number that an accepted text stands for, rounded once. -/
def strictValue (text : List Char) : Binary64 :=
  let negative : Bool := text.head? = some '-'
  let body := (text.dropWhile fun c => c = '+' || c = '-').map Char.toLower
  let mantissa := body.takeWhile (· ≠ 'e')
  let exponent := exponentOf ((body.dropWhile (· ≠ 'e')).drop 1)
  let fraction := (mantissa.dropWhile (· ≠ '.')).drop 1
  if body = "nan".toList then .nan
  else if body = "inf".toList ∨ body = "infinity".toList then .infinity negative
  else Decimal.toBinary64 negative
    ⟨ofDigits (mantissa.filter Char.isDigit), exponent - fraction.length⟩

/-- The strict reading of a number. -/
def strict? (text : List Char) : Option Binary64 :=
  if strictGrammar.rmatch text then some (strictValue text) else none

end Grammars

section Plain

/-- The parts of a plain text. -/
structure Plain where
  negative : Bool
  whole : List Char
  /-- What stands behind the point, if there is one. -/
  fraction : Option (List Char)
  isDigit_whole : ∀ c ∈ whole, c.isDigit = true
  isDigit_fraction : ∀ digits ∈ fraction, ∀ c ∈ digits, c.isDigit = true

/-- A point and what stands behind it. -/
def pointText : Option (List Char) → List Char
  | none => []
  | some digits => '.' :: digits

namespace Plain

/-- A plain text without its sign. -/
def body (p : Plain) : List Char := p.whole ++ pointText p.fraction

/-- A plain text as it is written. -/
def text (p : Plain) : List Char := signText p.negative ++ p.body

/-- All digits of a plain text. -/
def digits (p : Plain) : List Char := p.whole ++ p.fraction.getD []

/-- The number of a plain text. -/
def value (p : Plain) : Binary64 :=
  Decimal.toBinary64 p.negative ⟨ofDigits p.digits, -((p.fraction.getD []).length : Int)⟩

end Plain

/-- The digits behind the first point of a text, if there is one. -/
def behindPoint (text : List Char) : Option (List Char) :=
  match text.dropWhile (· ≠ '.') with
  | [] => none
  | _ :: rest => some (rest.filter Char.isDigit)

/-- The parts of the number in a text. -/
def scan (text : List Char) : Plain where
  negative := (text.filter belongs).head? = some '-'
  whole := (text.takeWhile (· ≠ '.')).filter Char.isDigit
  fraction := behindPoint text
  isDigit_whole := fun _ hc => (List.mem_filter.mp hc).2
  isDigit_fraction := by
    intro digits hdigits c hc
    unfold behindPoint at hdigits
    split at hdigits
    · cases hdigits
    · cases hdigits
      exact (List.mem_filter.mp hc).2

end Plain

section Scan

variable {c : Char}

theorem kept_dotted (text : List Char) : kept true true text = text.filter Char.isDigit := by
  induction text with
  | nil => rfl
  | cons c rest ih =>
      simp only [kept, List.filter_cons, ih]
      simp

/-- After the sign, the first point splits the digits. -/
theorem kept_started (text : List Char) :
    kept true false text = (scan text).body := by
  induction text with
  | nil => rfl
  | cons c rest ih =>
      by_cases hpoint : c = '.'
      · subst hpoint
        show '.' :: kept true true rest = '.' :: rest.filter Char.isDigit
        rw [kept_dotted]
      · simp only [Plain.body, scan, behindPoint] at ih ⊢
        cases hdigit : c.isDigit <;> simp [kept, hdigit, hpoint, ih]

/-- The sign is kept if it is the first character that can belong to a number. -/
theorem kept_unstarted (text : List Char) :
    kept false false text = signText (scan text).negative ++ kept true false text := by
  induction text with
  | nil => rfl
  | cons c rest ih =>
      cases hbelongs : belongs c with
      | false =>
          have hc := hbelongs
          simp only [belongs, Bool.or_eq_false_iff, decide_eq_false_iff_not] at hc
          have hsame : (scan (c :: rest)).negative = (scan rest).negative := by
            simp [scan, hbelongs]
          rw [hsame]
          simp [kept, hc, ih]
      | true =>
          have hsign : (scan (c :: rest)).negative = decide (c = '-') := by
            simp [scan, hbelongs]
          rw [hsign]
          simp only [belongs, Bool.or_eq_true, decide_eq_true_eq] at hbelongs
          rcases hbelongs with (hdigit | rfl) | rfl
          · have hminus : c ≠ '-' := by
              rintro rfl
              cases hdigit
            simp [kept, hdigit, hminus, signText]
          · rfl
          · rfl

theorem kept_eq (text : List Char) : kept false false text = (scan text).text := by
  rw [kept_unstarted, kept_started]
  rfl

theorem kept_sublist (started dotted : Bool) (text : List Char) :
    (kept started dotted text).Sublist text := by
  fun_induction kept started dotted text with
  | case1 => exact .slnil
  | case2 started dotted c rest hdigit ih => exact ih.cons_cons c
  | case3 started dotted c rest hdigit hminus ih => exact ih.cons_cons c
  | case4 started dotted c rest hdigit hminus hpoint ih => exact ih.cons_cons c
  | case5 started dotted c rest hdigit hminus hpoint ih => exact ih.cons c

/-- What was kept is kept again. -/
theorem kept_kept (started dotted : Bool) (text : List Char) :
    kept started dotted (kept started dotted text) = kept started dotted text := by
  fun_induction kept started dotted text with
  | case1 => rfl
  | case2 started dotted c rest hdigit ih => rw [kept, if_pos hdigit, ih]
  | case3 started dotted c rest hdigit hminus ih => rw [kept, if_neg hdigit, if_pos hminus, ih]
  | case4 started dotted c rest hdigit hminus hpoint ih =>
      rw [kept, if_neg hdigit, if_neg hminus, if_pos hpoint, ih]
  | case5 started dotted c rest hdigit hminus hpoint ih => exact ih

theorem digits_scan (text : List Char) : (scan text).digits = text.filter Char.isDigit := by
  have hsplit := List.takeWhile_append_dropWhile (p := (· ≠ '.')) (l := text)
  conv_rhs => rw [← hsplit, List.filter_append]
  simp only [Plain.digits, scan, behindPoint]
  congr 1
  cases hrest : text.dropWhile (· ≠ '.') with
  | nil => rfl
  | cons c rest =>
      have hc := List.head?_dropWhile_not (· ≠ '.') text
      rw [hrest] at hc
      simp at hc
      simp [hc]

end Scan

section Shape

variable {l : List Char} {c : Char}

theorem mem_chars (h : c ∈ l) : [c] ∈ (l.map RegularExpression.char).sum.matches' := by
  induction l with
  | nil => cases h
  | cons d l ih =>
      rw [List.map_cons, List.sum_cons, RegularExpression.matches'_add, Language.mem_add]
      rcases List.mem_cons.mp h with rfl | h
      · exact Or.inl rfl
      · exact Or.inr (ih h)

theorem mem_of_isDigit (h : c.isDigit = true) : c ∈ "0123456789".toList := by
  simp only [Char.isDigit, Bool.and_eq_true, decide_eq_true_eq, UInt32.le_iff_toNat_le] at h
  obtain ⟨n, hn⟩ : ∃ n, n = c.toNat := ⟨_, rfl⟩
  have hlow : 48 ≤ n := hn ▸ h.1
  have hhigh : n ≤ 57 := hn ▸ h.2
  rw [← Char.ofNat_toNat c, ← hn]
  interval_cases n <;> decide

theorem mem_digit (h : c.isDigit = true) : [c] ∈ digit.matches' := mem_chars (mem_of_isDigit h)

theorem mem_star_digit (h : ∀ c ∈ l, c.isDigit = true) : l ∈ digit.star.matches' := by
  rw [RegularExpression.matches'_star, Language.mem_kstar]
  refine ⟨l.map fun c => [c], ?_, ?_⟩
  · rw [← List.flatMap_def, List.flatMap_singleton']
  · intro y hy
    obtain ⟨c, hc, rfl⟩ := List.mem_map.mp hy
    exact mem_digit (h c hc)

theorem mem_some_digits (h : ∀ c ∈ l, c.isDigit = true) (hne : l ≠ []) :
    l ∈ (digit * digit.star).matches' := by
  obtain ⟨c, l, rfl⟩ := List.exists_cons_of_ne_nil hne
  exact Language.append_mem_mul (mem_digit (h c List.mem_cons_self))
    (mem_star_digit fun d hd => h d (List.mem_cons_of_mem c hd))

theorem mem_optional {r : RegularExpression Char} (h : l ∈ r.matches') :
    l ∈ (optional r).matches' := Or.inr h

theorem nil_mem_optional (r : RegularExpression Char) : [] ∈ (optional r).matches' := Or.inl rfl

namespace Plain

variable (p : Plain)

theorem mem_plainGrammar : p.text ∈ plainGrammar.matches' := by
  apply Language.append_mem_mul
  · cases p.negative with
    | false => exact nil_mem_optional _
    | true => exact mem_optional rfl
  · apply Language.append_mem_mul (mem_star_digit p.isDigit_whole)
    cases hfraction : p.fraction with
    | none => exact nil_mem_optional _
    | some digits =>
        exact mem_optional (Language.append_mem_mul (a := ['.']) rfl
          (mem_star_digit (p.isDigit_fraction digits hfraction)))

/-- With a digit, whether in front of the point or behind it, a plain text is accepted. -/
theorem mem_strictGrammar (h : p.digits ≠ []) : p.text ∈ strictGrammar.matches' := by
  apply Language.append_mem_mul
  · cases p.negative with
    | false => exact nil_mem_optional _
    | true => exact mem_optional (Or.inr rfl)
  · right
    rw [← List.append_nil p.body]
    refine Language.append_mem_mul ?_ (nil_mem_optional _)
    cases hfraction : p.fraction with
    | none =>
        simp only [digits, hfraction, Option.getD_none, List.append_nil] at h
        left
        left
        rw [body, hfraction, pointText, List.append_nil]
        exact mem_some_digits p.isDigit_whole h
    | some digits =>
        have hdigits := p.isDigit_fraction digits hfraction
        by_cases hwhole : p.whole = []
        · have hne : digits ≠ [] := by
            simpa [Plain.digits, hfraction, hwhole] using h
          right
          rw [body, hfraction]
          exact Language.append_mem_mul (mem_star_digit p.isDigit_whole)
            (Language.append_mem_mul (a := ['.']) rfl (mem_some_digits hdigits hne))
        · left
          right
          rw [body, hfraction]
          exact Language.append_mem_mul (mem_some_digits p.isDigit_whole hwhole)
            (Language.append_mem_mul (a := ['.']) rfl (mem_star_digit hdigits))

end Plain

end Shape

section Reading

/-- Digits and points are neither signs nor letters. -/
theorem unsigned_char {c : Char} (h : c.isDigit = true ∨ c = '.') :
    c ≠ '-' ∧ c ≠ '+' ∧ c ≠ 'e' ∧ c.toLower = c := by
  have hchars : ('.' :: "0123456789".toList).all fun c =>
      c ≠ '-' ∧ c ≠ '+' ∧ c ≠ 'e' ∧ c.toLower = c := by
    decide
  have hmem : c ∈ '.' :: "0123456789".toList := by
    rcases h with hdigit | rfl
    · exact List.mem_cons_of_mem _ (mem_of_isDigit hdigit)
    · exact List.mem_cons_self
  exact of_decide_eq_true (List.all_eq_true.mp hchars c hmem)

namespace Plain

variable (p : Plain)

variable {p} in
theorem mem_body {c : Char} (h : c ∈ p.body) : c.isDigit = true ∨ c = '.' := by
  rcases List.mem_append.mp h with hwhole | hpoint
  · exact Or.inl (p.isDigit_whole c hwhole)
  · cases hfraction : p.fraction with
    | none =>
        rw [hfraction] at hpoint
        cases hpoint
    | some digits =>
        rw [hfraction] at hpoint
        rcases List.mem_cons.mp hpoint with rfl | hc
        · exact Or.inr rfl
        · exact Or.inl (p.isDigit_fraction digits hfraction c hc)

theorem filter_isDigit_body : p.body.filter Char.isDigit = p.digits := by
  rw [body, List.filter_append, List.filter_eq_self.mpr p.isDigit_whole, digits]
  congr 1
  cases hfraction : p.fraction with
  | none => rfl
  | some digits => exact List.filter_eq_self.mpr (p.isDigit_fraction digits hfraction)

theorem filter_isDigit_text : p.text.filter Char.isDigit = p.digits := by
  have hsign : (signText p.negative).filter Char.isDigit = [] := by
    cases p.negative <;> rfl
  rw [← filter_isDigit_body, text, List.filter_append, hsign, List.nil_append, body]

theorem stops_pointText : Stops (pointText p.fraction) := by
  cases p.fraction with
  | none =>
      intro c hc
      cases hc
  | some digits =>
      rintro c ⟨⟩
      rfl

theorem drop_pointText : (pointText p.fraction).drop 1 = p.fraction.getD [] := by
  cases p.fraction <;> rfl

theorem readUnsigned_body (negative : Bool) :
    readUnsigned negative p.body =
      Decimal.toBinary64 negative ⟨ofDigits p.digits, -((p.fraction.getD []).length : Int)⟩ := by
  unfold readUnsigned body
  rw [takeWhile_digits p.isDigit_whole p.stops_pointText,
    dropWhile_digits p.isDigit_whole p.stops_pointText, p.drop_pointText]
  rfl

/-- The lenient reading of a plain text. -/
theorem readKept_text : readKept p.text = p.value := by
  have hbody := p.readUnsigned_body p.negative
  rw [text, value, ← hbody]
  cases p.negative with
  | true => rfl
  | false =>
      show readKept p.body = _
      unfold readKept
      split
      · rename_i rest heq
        exact absurd rfl (unsigned_char (mem_body (heq ▸ List.mem_cons_self))).1
      · rfl

theorem head?_text : p.text.head? = some '-' ↔ p.negative = true := by
  rw [text]
  cases p.negative with
  | true => simp [signText]
  | false =>
      simp only [signText, Bool.false_eq_true, if_false, List.nil_append, iff_false]
      intro hhead
      exact (unsigned_char (mem_body (List.mem_of_mem_head? hhead))).1 rfl

theorem dropSign_text : p.text.dropWhile (fun c => c = '+' || c = '-') = p.body := by
  have hbody : p.body.dropWhile (fun c => c = '+' || c = '-') = p.body := by
    cases hchars : p.body with
    | nil => rfl
    | cons c rest =>
        obtain ⟨hminus, hplus, -⟩ := unsigned_char (mem_body (hchars ▸ List.mem_cons_self))
        rw [List.dropWhile_cons_of_neg (by simp [hminus, hplus])]
  rw [text]
  cases p.negative with
  | true => exact hbody
  | false => exact hbody

theorem map_toLower_body : p.body.map Char.toLower = p.body := by
  conv_rhs => rw [← List.map_id p.body]
  exact List.map_congr_left fun c hc => (unsigned_char (mem_body hc)).2.2.2

theorem ne_exponent_of_mem_body : ∀ c ∈ p.body, decide (c ≠ 'e') = true :=
  fun _ hc => decide_eq_true (unsigned_char (mem_body hc)).2.2.1

theorem behindPoint_body : (p.body.dropWhile (· ≠ '.')).drop 1 = p.fraction.getD [] := by
  have hwhole : ∀ c ∈ p.whole, decide (c ≠ '.') = true := by
    intro c hc
    apply decide_eq_true
    rintro rfl
    cases p.isDigit_whole _ hc
  rw [body, List.dropWhile_append_of_pos hwhole]
  cases p.fraction <;> rfl

/-- The strict reading of a plain text with a digit. -/
theorem strictValue_text (h : p.digits ≠ []) : strictValue p.text = p.value := by
  have hname : ∀ name : List Char, name.filter Char.isDigit = [] → p.body ≠ name := by
    rintro name hname rfl
    exact h (p.filter_isDigit_body ▸ hname)
  have htake : p.body.takeWhile (· ≠ 'e') = p.body :=
    List.takeWhile_eq_self_iff.mpr p.ne_exponent_of_mem_body
  have hrest : p.body.dropWhile (· ≠ 'e') = [] :=
    List.dropWhile_eq_nil_iff.mpr p.ne_exponent_of_mem_body
  simp only [strictValue, p.dropSign_text, p.map_toLower_body, htake, hrest, p.behindPoint_body,
    p.filter_isDigit_body, p.head?_text]
  rw [if_neg (hname _ (by decide)), if_neg (not_or.mpr ⟨hname _ (by decide), hname _ (by decide)⟩)]
  simp [value, exponentOf, ofDigits]

/-- **A plain text with a digit is accepted**, as the number that is read leniently. -/
theorem strict?_text (h : p.digits ≠ []) : strict? p.text = some (readKept p.text) := by
  rw [strict?, if_pos ((RegularExpression.rmatch_iff_matches' _ _).mpr (p.mem_strictGrammar h)),
    p.strictValue_text h, p.readKept_text]

theorem belongs_of_mem_text {c : Char} (h : c ∈ p.text) : belongs c = true := by
  rcases List.mem_append.mp h with hsign | hbody
  · cases hn : p.negative with
    | false =>
        rw [hn] at hsign
        cases hsign
    | true =>
        rw [hn] at hsign
        obtain rfl := List.mem_singleton.mp hsign
        rfl
  · rcases mem_body hbody with hdigit | rfl
    · rw [belongs, hdigit]
      rfl
    · rfl

theorem minus_notMem_tail : '-' ∉ p.text.tail := by
  have hbody : '-' ∉ p.body := fun hmem => (unsigned_char (mem_body hmem)).1 rfl
  rw [text]
  cases p.negative with
  | true => exact hbody
  | false => exact fun hmem => hbody (List.mem_of_mem_tail hmem)

theorem count_point_text : p.text.count '.' ≤ 1 := by
  have hdigits : ∀ digits : List Char, (∀ c ∈ digits, c.isDigit = true) → digits.count '.' = 0 := by
    intro digits h
    apply List.count_eq_zero.mpr
    intro hmem
    cases h _ hmem
  have hsign : (signText p.negative).count '.' = 0 := by
    cases p.negative <;> rfl
  rw [text, body, List.count_append, List.count_append, hsign, hdigits _ p.isDigit_whole]
  cases hfraction : p.fraction with
  | none => simp [pointText]
  | some digits =>
      simp [pointText, hdigits digits (p.isDigit_fraction digits hfraction)]

end Plain

theorem kept_notMem_words (text : List Char) : kept false false text ∉ words := by
  have hwords : words.all fun word => word.any fun c => !belongs c := by
    decide
  intro hmem
  obtain ⟨c, hc, hbelongs⟩ := List.any_eq_true.mp (List.all_eq_true.mp hwords _ hmem)
  rw [kept_eq] at hc
  rw [(scan text).belongs_of_mem_text hc] at hbelongs
  cases hbelongs

theorem filter_isDigit_kept (text : List Char) :
    (kept false false text).filter Char.isDigit = text.filter Char.isDigit := by
  rw [kept_eq, Plain.filter_isDigit_text, digits_scan]

theorem any_isDigit_kept (text : List Char) :
    (kept false false text).any Char.isDigit = text.any Char.isDigit := by
  have hmem : ∀ c, c ∈ kept false false text ∧ c.isDigit = true ↔ c ∈ text ∧ c.isDigit = true := by
    intro c
    rw [← List.mem_filter, filter_isDigit_kept, List.mem_filter]
  rw [Bool.eq_iff_iff, List.any_eq_true, List.any_eq_true]
  exact exists_congr hmem

theorem digits_scan_ne_nil {text : List Char} (h : text.any Char.isDigit = true) :
    (scan text).digits ≠ [] := by
  obtain ⟨c, hc, hdigit⟩ := List.any_eq_true.mp h
  rw [digits_scan]
  exact List.ne_nil_of_mem (List.mem_filter.mpr ⟨hc, hdigit⟩)

theorem notMem_words_of_digit {text : List Char} (h : text.any Char.isDigit = true) :
    text ∉ words := by
  have hwords : ∀ word ∈ words, word.any Char.isDigit = false := by
    decide
  intro hmem
  rw [hwords text hmem] at h
  cases h

/-- Apart from the words, a text with a digit is what is kept of it, and one without is zero. -/
theorem parseChars_of_notMem_words {text : List Char} (h : text ∉ words) :
    parseChars text =
      if text.any Char.isDigit then readKept (kept false false text) else Binary64.zero := by
  simp only [words, List.map_cons, List.map_nil, List.mem_cons, List.not_mem_nil, or_false,
    not_or] at h
  simp only [parseChars, h, if_false, any_isDigit_kept]

/-- The strict reading never refuses what is kept of a text with a digit. -/
theorem strict?_kept {text : List Char} (h : text.any Char.isDigit = true) :
    strict? (kept false false text) = some (parseChars text) := by
  rw [parseChars_of_notMem_words (notMem_words_of_digit h), if_pos h, kept_eq,
    Plain.strict?_text _ (digits_scan_ne_nil h)]

/-- **What is kept of a line is a number or nothing.**  Of any text are kept: a minus if it is the
first character that can belong to a number, the digits in front of the first point, the point, and
the digits behind it; so a plain text with all digits of the text and nothing else but at most one
minus at its start and at most one point, of which all is kept again.  With a digit the strict
reading accepts it, so that the reading never falls back to zero.  Apart from the words a text is the
number that what is kept of it is; texts of which the same is kept are the same number. -/
theorem kept_reads (text : List Char) :
    kept false false text = (scan text).text ∧
    kept false false text ∈ plainGrammar.matches' ∧
    (kept false false text).filter Char.isDigit = text.filter Char.isDigit ∧
    (kept false false text).Sublist text ∧
    (∀ c ∈ kept false false text, c.isDigit = true ∨ c = '-' ∨ c = '.') ∧
    '-' ∉ (kept false false text).tail ∧ (kept false false text).count '.' ≤ 1 ∧
    kept false false (kept false false text) = kept false false text ∧
    (text.any Char.isDigit = true →
      kept false false text ∈ strictGrammar.matches' ∧
      strict? (kept false false text) = some (parseChars text)) ∧
    (text ∉ words →
      parseChars text =
        (if text.any Char.isDigit then (strict? (kept false false text)).getD Binary64.zero
        else Binary64.zero) ∧
      parseChars text = parseChars (kept false false text) ∧
      ∀ other ∉ words, kept false false other = kept false false text →
        parseChars other = parseChars text) := by
  have hplain := kept_eq text
  refine ⟨hplain, ?_, filter_isDigit_kept text, kept_sublist _ _ _, ?_, ?_, ?_,
    kept_kept _ _ _, ?_, ?_⟩
  · rw [hplain]
    exact (scan text).mem_plainGrammar
  · intro c hc
    rw [hplain] at hc
    simpa [belongs, or_assoc] using (scan text).belongs_of_mem_text hc
  · rw [hplain]
    exact (scan text).minus_notMem_tail
  · rw [hplain]
    exact (scan text).count_point_text
  · intro hdigit
    refine ⟨?_, strict?_kept hdigit⟩
    rw [hplain]
    exact (scan text).mem_strictGrammar (digits_scan_ne_nil hdigit)
  · intro htext
    refine ⟨?_, ?_, ?_⟩
    · by_cases hdigit : text.any Char.isDigit = true
      · rw [if_pos hdigit, strict?_kept hdigit, Option.getD_some]
      · rw [if_neg hdigit, parseChars_of_notMem_words htext, if_neg hdigit]
    · exact parseChars_eq_of_kept_eq htext (kept_notMem_words text) (kept_kept _ _ _).symm
    · intro other hother hsame
      exact parseChars_eq_of_kept_eq hother htext hsame

/-- Noise in front of the sign, a second sign, a second point and an exponent. -/
theorem kept_reads_noisy :
    kept false false "x-1-2.5.e3".toList = "-12.53".toList ∧
      "x-1-2.5.e3".toList.any Char.isDigit = true ∧ "x-1-2.5.e3".toList ∉ words ∧
      "-12.53".toList ∈ strictGrammar.matches' ∧
      strict? "-12.53".toList = some (parseChars "x-1-2.5.e3".toList) ∧
      parseChars "x-1-2.5.e3".toList = parseChars "-12.53".toList := by
  obtain ⟨-, -, -, -, -, -, -, -, hstrict, hvalue⟩ := kept_reads "x-1-2.5.e3".toList
  have hkept : kept false false "x-1-2.5.e3".toList = "-12.53".toList := by decide
  rw [hkept] at hstrict hvalue
  have hdigit : "x-1-2.5.e3".toList.any Char.isDigit = true := by decide
  have hword : "x-1-2.5.e3".toList ∉ words := by decide
  exact ⟨hkept, hdigit, hword, (hstrict hdigit).1, (hstrict hdigit).2, (hvalue hword).2.1⟩

end Reading

end Number

end ErrorFree
