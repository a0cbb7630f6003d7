import ErrorFree.Proofs.Number.Format
import ErrorFree.Toml.Document

/-!
# Numbers and truth values in TOML

**Literals.**  `Literal` is a natural number in decimal digits, or a truth value.

**Result.**  `value_literal`: in front of the end of a line a literal is read as its value, and nothing
else is.  Digits alone are no date and no time, no float, and no number in another base; the number
has to be in the range of integers.
-/

namespace ErrorFree

namespace Toml

/-- A number or a truth value, as it can stand behind an equals sign. -/
inductive Literal where
  | natural (n : Nat)
  | boolean (b : Bool)
  deriving DecidableEq, Repr

namespace Literal

/-- A literal as it is written. -/
def text : Literal → List Char
  | .natural n => Nat.toDigits 10 n
  | .boolean true => "true".toList
  | .boolean false => "false".toList

/-- The value of a literal. -/
def value : Literal → Value
  | .natural n => .integer n
  | .boolean b => .boolean b

/-- The literal is in the range of integers. -/
def Fits : Literal → Prop
  | .natural n => n < Nat.pow 2 63
  | .boolean _ => True

instance : (literal : Literal) → Decidable literal.Fits
  | .natural n => inferInstanceAs (Decidable (n < Nat.pow 2 63))
  | .boolean _ => inferInstanceAs (Decidable True)

end Literal

section Literals

variable {rest more ds : List Char} {c : Char}

/-- What follows is the end of a line. -/
def Closes (rest : List Char) : Prop := ∀ c ∈ rest.head?, c = '\n' ∨ c = '\r'

theorem Closes.stops (h : Closes rest) : Number.Stops rest := by
  intro c hc
  rcases h c hc with rfl | rfl <;> rfl

theorem expect_eq_none (hds : ∀ d ∈ ds, d.isDigit = true) (hrest : Closes rest)
    (hdigit : c.isDigit = false) (hend : c ≠ '\n' ∧ c ≠ '\r') : expect c (ds ++ rest) = none := by
  cases ds with
  | nil =>
      cases rest with
      | nil => rfl
      | cons d rest =>
          have hd : d ≠ c := by
            rintro rfl
            rcases hrest d rfl with h | h
            · exact hend.1 h
            · exact hend.2 h
          exact if_neg hd
  | cons d ds =>
      have hd : d ≠ c := by
        rintro rfl
        rw [hds d List.mem_cons_self] at hdigit
        cases hdigit
      exact if_neg hd

/-- After some of the digits the others are left. -/
theorem fixedDigits_eq_some {k acc n : Nat} {tail : List Char}
    (hds : ∀ d ∈ ds, d.isDigit = true) (hrest : Closes rest)
    (h : fixedDigits k acc (ds ++ rest) = some (n, tail)) :
    ∃ more, (∀ d ∈ more, d.isDigit = true) ∧ tail = more ++ rest := by
  induction k generalizing acc ds with
  | zero =>
      obtain ⟨-, rfl⟩ := Prod.mk.inj (Option.some.inj h)
      exact ⟨ds, hds, rfl⟩
  | succ k ih =>
      cases ds with
      | nil =>
          cases rest with
          | nil => cases h
          | cons c rest =>
              have hc : c.isDigit = false := hrest.stops c rfl
              simp [fixedDigits, hc] at h
      | cons d ds =>
          simp only [List.cons_append, fixedDigits, hds d List.mem_cons_self, if_true] at h
          exact ih (fun e he => hds e (List.mem_cons_of_mem d he)) h

theorem twoDigits_eq_some {low high n : Nat} {text tail : List Char}
    (h : twoDigits low high text = some (n, tail)) : fixedDigits 2 0 text = some (n, tail) := by
  unfold twoDigits at h
  obtain ⟨⟨m, after⟩, hdigits, h⟩ := Option.bind_eq_some_iff.mp h
  dsimp only at h
  split at h
  · rw [hdigits]
    exact h
  · cases h

/-- Digits alone are no date and no time. -/
theorem moment?_digits (hds : ∀ d ∈ ds, d.isDigit = true) (hrest : Closes rest) :
    moment? (ds ++ rest) = none := by
  have hdate : date? (ds ++ rest) = none := by
    cases hyear : fixedDigits 4 0 (ds ++ rest) with
    | none => simp [date?, hyear]
    | some result =>
        obtain ⟨year, tail⟩ := result
        obtain ⟨more, hmore, rfl⟩ := fixedDigits_eq_some hds hrest hyear
        simp [date?, hyear, expect_eq_none hmore hrest (c := '-') rfl (by decide)]
  have htime : time? (ds ++ rest) = none := by
    cases hhour : twoDigits 0 23 (ds ++ rest) with
    | none => simp [time?, hhour]
    | some result =>
        obtain ⟨hour, tail⟩ := result
        obtain ⟨more, hmore, rfl⟩ := fixedDigits_eq_some hds hrest (twoDigits_eq_some hhour)
        simp [time?, hhour, expect_eq_none hmore hrest (c := ':') rfl (by decide)]
  simp [moment?, hdate, htime]

theorem moreDigits_closes (fuel : Nat) (hrest : Closes rest) :
    moreDigits Char.isDigit fuel rest = some ([], rest) := by
  cases fuel with
  | zero => rfl
  | succ fuel =>
      cases rest with
      | nil => rfl
      | cons c rest =>
          rcases hrest c rfl with rfl | rfl <;> rfl

theorem moreDigits_digits {fuel : Nat} (hds : ∀ d ∈ ds, d.isDigit = true) (hrest : Closes rest)
    (hfuel : ds.length ≤ fuel) : moreDigits Char.isDigit fuel (ds ++ rest) = some (ds, rest) := by
  induction ds generalizing fuel with
  | nil => exact moreDigits_closes fuel hrest
  | cons d ds ih =>
      obtain ⟨fuel, rfl⟩ := Nat.exists_eq_succ_of_ne_zero (Nat.ne_of_gt (Nat.lt_of_lt_of_le
        (Nat.succ_pos ds.length) hfuel))
      have hd : d.isDigit = true := hds d List.mem_cons_self
      have hunderscore : d ≠ '_' := by
        rintro rfl
        cases hd
      have hmore := ih (fun e he => hds e (List.mem_cons_of_mem d he)) (Nat.le_of_succ_le_succ hfuel)
      rw [List.cons_append, moreDigits]
      · simp [hd, hmore]
      · rintro c rest rfl
        exact fun _ => hunderscore rfl
      · rintro rfl
        exact fun _ => hunderscore rfl

theorem exists_toDigits_eq_cons (n : Nat) :
    ∃ c ds, Nat.toDigits 10 n = c :: ds ∧ c.isDigit = true ∧ (∀ d ∈ ds, d.isDigit = true) ∧
      (c = '0' → ds = []) := by
  have hdigits := Number.isDigit_toDigits n
  obtain ⟨c, ds, hds⟩ := List.exists_cons_of_ne_nil (Nat.toDigits_ne_nil : Nat.toDigits 10 n ≠ [])
  rw [hds] at hdigits
  refine ⟨c, ds, hds, hdigits c List.mem_cons_self,
    fun d hd => hdigits d (List.mem_cons_of_mem c hd), ?_⟩
  rintro rfl
  by_cases hn : n = 0
  · rw [hn] at hds
    exact (List.cons.inj hds).2.symm
  · have hhead := Number.head?_toDigits_ne_zero hn
    rw [hds] at hhead
    exact absurd rfl hhead

theorem wholeDigits_toDigits (n : Nat) (hrest : Closes rest) :
    wholeDigits (Nat.toDigits 10 n ++ rest) = some (Nat.toDigits 10 n, rest) := by
  obtain ⟨c, ds, hn, hc, hds, hzero⟩ := exists_toDigits_eq_cons n
  rw [hn]
  by_cases hc0 : c = '0'
  · rw [hzero hc0, hc0]
    rfl
  · have hmore : moreDigits Char.isDigit (ds ++ rest).length (ds ++ rest) = some (ds, rest) := by
      apply moreDigits_digits hds hrest
      rw [List.length_append]
      omega
    rw [List.cons_append, wholeDigits]
    · rw [digits, if_pos hc, hmore]
      rfl
    · intro tail htail
      exact hc0 (List.cons.inj htail).1

theorem sign_of_isDigit {text : List Char} (hc : c.isDigit = true) :
    sign (c :: text) = (false, c :: text) := by
  rw [sign]
  · rintro rest heq
    rw [(List.cons.inj heq).1] at hc
    cases hc
  · rintro rest heq
    rw [(List.cons.inj heq).1] at hc
    cases hc

theorem namedFloat_of_isDigit {text : List Char} (hc : c.isDigit = true) :
    namedFloat (c :: text) = none := by
  have hi : c ≠ 'i' := by
    rintro rfl
    cases hc
  have hn : c ≠ 'n' := by
    rintro rfl
    cases hc
  simp [namedFloat, sign_of_isDigit hc, expectAll, expect, hi, hn]

theorem looksFloat_toDigits (n : Nat) (hrest : Closes rest) :
    looksFloat (Nat.toDigits 10 n ++ rest) = false := by
  obtain ⟨c, ds, hn, hc, -, -⟩ := exists_toDigits_eq_cons n
  have hsign : (sign (Nat.toDigits 10 n ++ rest)).2 = Nat.toDigits 10 n ++ rest := by
    rw [hn, List.cons_append, sign_of_isDigit hc]
  rw [looksFloat, hsign, wholeDigits_toDigits n hrest]
  cases rest with
  | nil => rfl
  | cons d rest =>
      rcases hrest d rfl with rfl | rfl <;> rfl

/-- No mark of another base follows a zero. -/
theorem integer_toDigits (n : Nat) (hrest : Closes rest) :
    integer (Nat.toDigits 10 n ++ rest) = decimalInteger (Nat.toDigits 10 n ++ rest) := by
  obtain ⟨c, ds, hn, -, -, hzero⟩ := exists_toDigits_eq_cons n
  have hbase : ∀ d tail, d = 'x' ∨ d = 'o' ∨ d = 'b' →
      Nat.toDigits 10 n ++ rest ≠ '0' :: d :: tail := by
    intro d tail hd htext
    rw [hn, List.cons_append, List.cons.injEq] at htext
    rw [hzero htext.1, List.nil_append] at htext
    rcases hrest d (by rw [htext.2]; rfl) with rfl | rfl <;> simp at hd
  unfold integer
  split
  · rename_i htext
    exact absurd htext (hbase _ _ (Or.inl rfl))
  · rename_i htext
    exact absurd htext (hbase _ _ (Or.inr (Or.inl rfl)))
  · rename_i htext
    exact absurd htext (hbase _ _ (Or.inr (Or.inr rfl)))
  · rfl

theorem fitting_natCast {n : Nat} (hn : n < Nat.pow 2 63) : fitting n = some (.integer n) := by
  have hlow : -((Nat.pow 2 63 : Nat) : Int) ≤ n := by
    have hsign := Int.natCast_nonneg (Nat.pow 2 63)
    have hpos := Int.natCast_nonneg n
    exact (Int.neg_nonpos_of_nonneg hsign).trans hpos
  exact if_pos ⟨hlow, Int.ofNat_lt.mpr hn⟩

theorem decimalInteger_eq {text body ds : List Char} (hsign : sign text = (false, body))
    (hdigits : wholeDigits body = some (ds, rest)) :
    decimalInteger text = (fitting (Nat.ofDigitChars 10 ds 0)).map fun v => (v, rest) := by
  unfold decimalInteger
  rw [hsign]
  simp only
  rw [hdigits, Option.bind_eq_bind, Option.bind_some, if_neg Bool.false_ne_true,
    Option.map_eq_bind]
  rfl

theorem decimalInteger_toDigits {n : Nat} (hn : n < Nat.pow 2 63) (hrest : Closes rest) :
    decimalInteger (Nat.toDigits 10 n ++ rest) = some (.integer n, rest) := by
  obtain ⟨c, ds, hdigits, hc, -, -⟩ := exists_toDigits_eq_cons n
  have hsign : sign (Nat.toDigits 10 n ++ rest) = (false, Nat.toDigits 10 n ++ rest) := by
    rw [hdigits, List.cons_append, sign_of_isDigit hc]
  rw [decimalInteger_eq hsign (wholeDigits_toDigits n hrest), Nat.ofDigitChars_ten_toDigits,
    fitting_natCast hn]
  rfl

theorem number_toDigits {n : Nat} (hn : n < Nat.pow 2 63) (hrest : Closes rest) :
    number (Nat.toDigits 10 n ++ rest) = some (.integer n, rest) := by
  have hnamed : namedFloat (Nat.toDigits 10 n ++ rest) = none := by
    obtain ⟨c, ds, hdigits, hc, -, -⟩ := exists_toDigits_eq_cons n
    rw [hdigits, List.cons_append, namedFloat_of_isDigit hc]
  rw [number, hnamed, looksFloat_toDigits n hrest, integer_toDigits n hrest]
  exact decimalInteger_toDigits hn hrest

theorem value_of_isDigit {text : List Char} (depth : Nat) (hc : c.isDigit = true) :
    value depth (c :: text) = scalar (c :: text) := by
  rw [value]
  all_goals
    intros
    simp_all

theorem value_literal {literal : Literal} (h : literal.Fits) (depth : Nat) (hrest : Closes rest) :
    value depth (literal.text ++ rest) = some (literal.value, rest) := by
  cases literal with
  | boolean b =>
      cases b with
      | true =>
          show value depth ('t' :: 'r' :: 'u' :: 'e' :: rest) = _
          rw [value]
          rfl
      | false =>
          show value depth ('f' :: 'a' :: 'l' :: 's' :: 'e' :: rest) = _
          rw [value]
          rfl
  | natural n =>
      obtain ⟨c, ds, hdigits, hc, -, -⟩ := exists_toDigits_eq_cons n
      have hscalar : value depth (Nat.toDigits 10 n ++ rest) = scalar (Nat.toDigits 10 n ++ rest) := by
        rw [hdigits, List.cons_append, value_of_isDigit depth hc]
      show value depth (Nat.toDigits 10 n ++ rest) = _
      rw [hscalar, scalar, moment?_digits (Number.isDigit_toDigits n) hrest]
      exact number_toDigits h hrest

end Literals

end Toml

end ErrorFree
