import ErrorFree.Config.Environment
import Mathlib.Data.List.TakeWhile
import Mathlib.Data.Nat.Digits.Defs

/-!
# Numbers in variables of the environment

**White space.**  `Around text raw` says that `raw` is `text` with white space around it.  A text
without white space is what trimming leaves of it (`trimWhite_of_around`).

**Grammar.**  `Spells text n`: the text is an optional plus and one or more digits, of which `n` is
the decimal value.  It says nothing about how large `n` is.

**Range.**  The reader accepts the texts of the grammar whose value is below `2 ^ 64`, as that value
(`unsigned?_eq_some_iff`); larger ones it refuses.

**Result.**  `number_exact`: the same of a variable, with the error for all other texts.
-/

namespace ErrorFree

namespace Text

section White

variable {text raw : List Char}

/-- The text with nothing but white space around it. -/
def Around (text raw : List Char) : Prop :=
  ∃ before after, raw = before ++ text ++ after ∧ (∀ c ∈ before, isWhite c = true) ∧
    ∀ c ∈ after, isWhite c = true

theorem around_trimWhite (raw : List Char) : Around (trimWhite raw) raw := by
  refine ⟨raw.takeWhile isWhite, ((raw.dropWhile isWhite).reverse.takeWhile isWhite).reverse, ?_,
    ?_, ?_⟩
  · rw [trimWhite, List.append_assoc, ← List.reverse_append, List.takeWhile_append_dropWhile,
      List.reverse_reverse, List.takeWhile_append_dropWhile]
  · intro c hc
    exact List.mem_takeWhile_imp hc
  · intro c hc
    exact List.mem_takeWhile_imp (List.mem_reverse.mp hc)

theorem dropWhile_of_solid (h : ∀ c ∈ text, isWhite c = false) (hne : text ≠ [])
    (rest : List Char) : (text ++ rest).dropWhile isWhite = text ++ rest := by
  obtain ⟨c, more, rfl⟩ := List.exists_cons_of_ne_nil hne
  have hc : ¬ isWhite c = true := by simp [h c List.mem_cons_self]
  exact List.dropWhile_cons_of_neg hc

/-- Trimming leaves a text without white space of what has white space around it. -/
theorem trimWhite_of_around (h : ∀ c ∈ text, isWhite c = false) (hne : text ≠ [])
    (haround : Around text raw) : trimWhite raw = text := by
  obtain ⟨before, after, rfl, hbefore, hafter⟩ := haround
  have hsolid : ∀ c ∈ text.reverse, isWhite c = false := fun c hc => h c (List.mem_reverse.mp hc)
  have hreverse := dropWhile_of_solid hsolid (List.reverse_ne_nil_iff.mpr hne) []
  rw [List.append_nil] at hreverse
  rw [trimWhite, List.append_assoc, List.dropWhile_append_of_pos hbefore,
    dropWhile_of_solid h hne after, List.reverse_append,
    List.dropWhile_append_of_pos fun c hc => hafter c (List.mem_reverse.mp hc), hreverse,
    List.reverse_reverse]

end White

section Grammar

variable {text digits : List Char} {n : Nat}

/-- One or more digits, of which `n` is the decimal value. -/
structure IsDecimal (digits : List Char) (n : Nat) : Prop where
  ne_nil : digits ≠ []
  isDigit : ∀ c ∈ digits, '0' ≤ c ∧ c ≤ '9'
  value : n = Nat.ofDigits 10 (digits.reverse.map fun c => c.toNat - '0'.toNat)

/-- An optional plus and one or more digits, of which `n` is the decimal value. -/
def Spells (text : List Char) (n : Nat) : Prop :=
  ∃ digits, (text = digits ∨ text = '+' :: digits) ∧ IsDecimal digits n

theorem isDigit_iff (c : Char) : c.isDigit = true ↔ '0' ≤ c ∧ c ≤ '9' := by
  simp [Char.isDigit, Char.le_def]

/-- Digits read from the left have the value of the number that they write in base ten. -/
theorem ofDigitChars_eq (digits : List Char) :
    Nat.ofDigitChars 10 digits 0 =
      Nat.ofDigits 10 (digits.reverse.map fun c => c.toNat - '0'.toNat) := by
  rw [Nat.ofDigits_eq_foldr, List.foldr_map, List.foldr_reverse, Nat.ofDigitChars]
  simp only [Nat.cast_id, Nat.add_comm]

theorem digitsValue?_eq_some_iff :
    digitsValue? digits = some n ↔ IsDecimal digits n ∧ n < 2 ^ 64 := by
  have hbound : unsignedBound = 2 ^ 64 := rfl
  have hdigits : digits.all Char.isDigit = true ↔ ∀ c ∈ digits, '0' ≤ c ∧ c ≤ '9' := by
    simp only [List.all_eq_true, isDigit_iff]
  simp only [digitsValue?, hdigits, hbound, ofDigitChars_eq]
  constructor
  · intro h
    split at h
    · rename_i hform
      split at h
      · rename_i hlt
        obtain rfl := Option.some.inj h
        exact ⟨⟨hform.1, hform.2, rfl⟩, hlt⟩
      · cases h
    · cases h
  · rintro ⟨⟨hne, hall, rfl⟩, hlt⟩
    rw [if_pos ⟨hne, hall⟩, if_pos hlt]

theorem IsDecimal.head?_ne_plus (h : IsDecimal text n) : text.head? ≠ some '+' := by
  intro hplus
  have hle := (h.isDigit '+' (List.mem_of_head? hplus)).1
  revert hle
  decide

theorem spells_plus_iff : Spells ('+' :: digits) n ↔ IsDecimal digits n := by
  constructor
  · rintro ⟨ds, heq | heq, hds⟩
    · exact absurd (heq ▸ rfl) hds.head?_ne_plus
    · obtain rfl := (List.cons.inj heq).2
      exact hds
  · intro h
    exact ⟨digits, Or.inr rfl, h⟩

theorem spells_iff_of_no_plus (h : text.head? ≠ some '+') : Spells text n ↔ IsDecimal text n := by
  constructor
  · rintro ⟨ds, rfl | rfl, hds⟩
    · exact hds
    · exact absurd rfl h
  · intro hdecimal
    exact ⟨text, Or.inl rfl, hdecimal⟩

/-- What the reader accepts, and as which number. -/
theorem unsigned?_eq_some_iff : unsigned? text = some n ↔ Spells text n ∧ n < 2 ^ 64 := by
  by_cases hplus : text.head? = some '+'
  · obtain ⟨digits, rfl⟩ := List.head?_eq_some_iff.mp hplus
    rw [spells_plus_iff]
    exact digitsValue?_eq_some_iff
  · have hread : unsigned? text = digitsValue? text := by
      unfold unsigned?
      split
      · exact absurd rfl hplus
      · rfl
    rw [hread, spells_iff_of_no_plus hplus]
    exact digitsValue?_eq_some_iff

theorem IsDecimal.unique {n' : Nat} (h : IsDecimal digits n) (h' : IsDecimal digits n') : n = n' :=
  h.value.trans h'.value.symm

/-- A text spells one number at most. -/
theorem Spells.unique {n' : Nat} (h : Spells text n) (h' : Spells text n') : n = n' := by
  by_cases hplus : text.head? = some '+'
  · obtain ⟨digits, rfl⟩ := List.head?_eq_some_iff.mp hplus
    exact (spells_plus_iff.mp h).unique (spells_plus_iff.mp h')
  · exact ((spells_iff_of_no_plus hplus).mp h).unique ((spells_iff_of_no_plus hplus).mp h')

theorem isWhite_of_isDigit {c : Char} (h : '0' ≤ c ∧ c ≤ '9') : isWhite c = false := by
  have hlow : 48 ≤ c.toNat := Char.le_def.mp h.1
  have hhigh : c.toNat ≤ 57 := Char.le_def.mp h.2
  simp only [isWhite, Bool.or_eq_false_iff, Bool.and_eq_false_imp, decide_eq_true_eq,
    decide_eq_false_iff_not, Nat.not_le, beq_eq_false_iff_ne, ne_eq]
  omega

/-- No white space stands in a text of the grammar. -/
theorem Spells.solid (h : Spells text n) : (∀ c ∈ text, isWhite c = false) ∧ text ≠ [] := by
  obtain ⟨digits, rfl | rfl, hdecimal⟩ := h
  · exact ⟨fun c hc => isWhite_of_isDigit (hdecimal.isDigit c hc), hdecimal.ne_nil⟩
  · refine ⟨?_, List.cons_ne_nil _ _⟩
    intro c hc
    rcases List.mem_cons.mp hc with rfl | hdigit
    · decide
    · exact isWhite_of_isDigit (hdecimal.isDigit c hdigit)

/-- The decimal text of a number spells it. -/
theorem spells_toDigits (n : Nat) : Spells (Nat.toDigits 10 n) n := by
  refine ⟨Nat.toDigits 10 n, Or.inl rfl, Nat.toDigits_ne_nil, ?_, ?_⟩
  · intro c hc
    exact (isDigit_iff c).mp (Nat.isDigit_of_mem_toDigits (by decide) (Nat.le_refl 10) hc)
  · rw [← ofDigitChars_eq, Nat.ofDigitChars_ten_toDigits]

end Grammar

end Text

namespace Environment

variable {env : Environment} {name raw : String} {text : List Char} {n : Nat}

theorem number_of_set (h : env name = some raw) :
    env.number name =
      (Text.unsigned? (Text.trimWhite raw.toList)).elim (.error (.badVariable name raw))
        fun n => .ok (some n) := by
  rw [number, h]
  dsimp only
  cases Text.unsigned? (Text.trimWhite raw.toList) <;> rfl

/-- A text of the grammar is read as its number, or refused if that is out of range. -/
theorem number_of_spells (h : env name = some raw) (haround : Text.Around text raw.toList)
    (hspells : Text.Spells text n) :
    env.number name =
      if n < 2 ^ 64 then .ok (some n) else .error (.badVariable name raw) := by
  have htrim := Text.trimWhite_of_around hspells.solid.1 hspells.solid.2 haround
  rw [number_of_set h, htrim]
  by_cases hlt : n < 2 ^ 64
  · have hread := Text.unsigned?_eq_some_iff.mpr ⟨hspells, hlt⟩
    rw [hread, if_pos hlt]
    rfl
  · have hread : Text.unsigned? text = none := by
      apply Option.eq_none_iff_forall_ne_some.mpr
      intro n' hn'
      obtain ⟨hspells', hlt'⟩ := Text.unsigned?_eq_some_iff.mp hn'
      exact hlt (hspells.unique hspells' ▸ hlt')
    rw [hread, if_neg hlt]
    rfl

/-- What is read is the number of a text of the grammar, without the white space around it. -/
theorem exists_spells_of_number (h : env name = some raw) (hread : env.number name = .ok (some n)) :
    n < 2 ^ 64 ∧ ∃ text, Text.Around text raw.toList ∧ Text.Spells text n := by
  rw [number_of_set h] at hread
  cases hvalue : Text.unsigned? (Text.trimWhite raw.toList) with
  | none =>
      rw [hvalue] at hread
      cases hread
  | some n' =>
      rw [hvalue] at hread
      obtain rfl : n' = n := Option.some.inj (Except.ok.inj hread)
      obtain ⟨hspells, hlt⟩ := Text.unsigned?_eq_some_iff.mp hvalue
      exact ⟨hlt, _, Text.around_trimWhite raw.toList, hspells⟩

/-- A variable that is set holds a number or is refused. -/
theorem number_cases (h : env name = some raw) :
    (∃ n, env.number name = .ok (some n)) ∨ env.number name = .error (.badVariable name raw) := by
  rw [number_of_set h]
  cases Text.unsigned? (Text.trimWhite raw.toList) with
  | none => exact Or.inr rfl
  | some n => exact Or.inl ⟨n, rfl⟩

/-- **Numbers in variables: exactly the grammar, exactly the range.**  A variable that is set to
some text holds the number `n` exactly if the text is, without the white space around it, an
optional plus and one or more digits of the value `n`, and `n` is below `2 ^ 64`.  Every other text
is an error that names the variable.  So the decimal text of a number, with any white space around
it, is that number if it is below `2 ^ 64`, and every text of a greater number is refused. -/
theorem number_exact (env : Environment) (name raw : String) (h : env name = some raw) :
    (∀ n, env.number name = .ok (some n) ↔
      n < 2 ^ 64 ∧ ∃ text, Text.Around text raw.toList ∧ Text.Spells text n) ∧
    ((¬ ∃ n text, n < 2 ^ 64 ∧ Text.Around text raw.toList ∧ Text.Spells text n) →
      env.number name = .error (.badVariable name raw)) ∧
    (ConfigError.badVariable name raw).message =
      ConfigError.invalidValue name ("expected a non-negative integer, got '" ++ raw ++ "'") ∧
    (∀ n, n < 2 ^ 64 → Text.Around (Nat.toDigits 10 n) raw.toList →
      env.number name = .ok (some n)) ∧
    (∀ n text, 2 ^ 64 ≤ n → Text.Around text raw.toList → Text.Spells text n →
      env.number name = .error (.badVariable name raw)) := by
  refine ⟨?_, ?_, rfl, ?_, ?_⟩
  · intro n
    constructor
    · exact exists_spells_of_number h
    · rintro ⟨hlt, text, haround, hspells⟩
      rw [number_of_spells h haround hspells, if_pos hlt]
  · intro hno
    rcases number_cases h with ⟨n, hread⟩ | herror
    · obtain ⟨hlt, text, haround, hspells⟩ := exists_spells_of_number h hread
      exact absurd ⟨n, text, hlt, haround, hspells⟩ hno
    · exact herror
  · intro n hlt haround
    rw [number_of_spells h haround (Text.spells_toDigits n), if_pos hlt]
  · intro n text hle haround hspells
    rw [number_of_spells h haround hspells, if_neg (Nat.not_lt.mpr hle)]

/-- A variable with the largest number in range: a plus, a leading zero, white space around it. -/
def largestSeed : Environment := fun name =>
  if name = "EFRT_SEED" then some "\t+018446744073709551615\u00a0" else none

theorem number_exact_largest :
    largestSeed "EFRT_SEED" = some "\t+018446744073709551615\u00a0" ∧
      largestSeed.number "EFRT_SEED" = .ok (some 18446744073709551615) := by
  have hset : largestSeed "EFRT_SEED" = some "\t+018446744073709551615\u00a0" := rfl
  have haround : Text.Around "+018446744073709551615".toList
      "\t+018446744073709551615\u00a0".toList :=
    ⟨['\t'], ['\u00a0'], by decide, List.forall_mem_singleton.mpr rfl,
      List.forall_mem_singleton.mpr rfl⟩
  have hdigits : "018446744073709551615".toList.all Char.isDigit = true := by decide
  have hdecimal : Text.IsDecimal "018446744073709551615".toList 18446744073709551615 :=
    ⟨by decide, fun c hc => (Text.isDigit_iff c).mp (List.all_eq_true.mp hdigits c hc), by decide⟩
  have hspells : Text.Spells "+018446744073709551615".toList 18446744073709551615 :=
    ⟨_, Or.inr rfl, hdecimal⟩
  exact ⟨hset, ((number_exact _ _ _ hset).1 _).mpr ⟨by decide, _, haround, hspells⟩⟩

end Environment

end ErrorFree
