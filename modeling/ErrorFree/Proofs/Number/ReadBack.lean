import ErrorFree.Number.Lenient
import ErrorFree.Proofs.Console.Lines
import ErrorFree.Proofs.Number.Format

/-!
# What is printed is read back

**Reading.**  The characters of a plain numeral all belong to the number (`kept_text`), so that it
is read as the decimal with its digits (`parseChars_text`).

**Result.**  `printed_reads_back`: a number that is not finite, or is written positionally, is read
from its text; and the line that is printed for it is the line that is read.
-/

namespace ErrorFree

namespace Number

section Reading

variable {digits : List Char}

/-- Digits are kept. -/
theorem kept_digits (h : ∀ c ∈ digits, c.isDigit = true) (dotted : Bool) (rest : List Char) :
    kept true dotted (digits ++ rest) = digits ++ kept true dotted rest := by
  induction digits with
  | nil => rfl
  | cons c digits ih =>
      have hc : c.isDigit = true := h c List.mem_cons_self
      have hdigits : ∀ b ∈ digits, b.isDigit = true := fun b hb => h b (List.mem_cons_of_mem c hb)
      rw [List.cons_append, kept, if_pos hc, ih hdigits]
      rfl

theorem kept_fractionText (h : ∀ c ∈ digits, c.isDigit = true) :
    kept true false (fractionText digits) = fractionText digits := by
  cases digits with
  | nil => rfl
  | cons c digits =>
      have hrest := kept_digits h true []
      rw [List.append_nil, kept, List.append_nil] at hrest
      show '.' :: kept true true (c :: digits) = _
      rw [hrest]
      rfl

variable {n : Numeral}

/-- All characters of a plain numeral belong to the number. -/
theorem kept_text (h : n.power = none) : kept false false n.text = n.text := by
  obtain ⟨c, whole, hwhole⟩ := List.exists_cons_of_ne_nil n.whole_ne_nil
  have hdigits := hwhole ▸ n.isDigit_whole
  have hc : c.isDigit = true := hdigits c List.mem_cons_self
  have hrest : kept true false (n.whole ++ fractionText n.fraction) =
      n.whole ++ fractionText n.fraction := by
    rw [kept_digits n.isDigit_whole, kept_fractionText n.isDigit_fraction]
  rw [Numeral.text, h, powerText, List.append_nil]
  cases n.negative with
  | true =>
      show '-' :: kept true false (n.whole ++ fractionText n.fraction) = _
      rw [hrest]
      rfl
  | false =>
      rw [hwhole] at hrest ⊢
      show kept false false (c :: (whole ++ fractionText n.fraction)) = _
      rw [kept, if_pos hc]
      rw [List.cons_append, kept, if_pos hc] at hrest
      exact hrest

/-- The digits behind the sign are read as one decimal. -/
theorem readUnsigned_text (s : Bool) (n : Numeral) (h : n.power = none) :
    readUnsigned s (n.whole ++ fractionText n.fraction) = n.decimal.toBinary64 s := by
  have hstops : Stops (fractionText n.fraction) := by
    have hstops := stops_fractionText n.fraction none
    rwa [powerText, List.append_nil] at hstops
  have hdrop : (fractionText n.fraction).drop 1 = n.fraction := by
    cases n.fraction <;> rfl
  unfold readUnsigned
  rw [takeWhile_digits n.isDigit_whole hstops, dropWhile_digits n.isDigit_whole hstops, hdrop,
    Numeral.decimal, h, powerOf, Int.zero_sub]
  rfl

/-- **A plain numeral is read as the decimal with its digits.** -/
theorem parseChars_text (h : n.power = none) :
    parseChars n.text = n.decimal.toBinary64 n.negative := by
  have hdigit := n.any_isDigit
  have hword : ∀ word : List Char, word.any Char.isDigit = false → n.text ≠ word := by
    rintro word hword rfl
    rw [hdigit] at hword
    cases hword
  rw [parseChars, if_neg (hword _ (by decide)), if_neg (hword _ (by decide)),
    if_neg (hword _ (by decide))]
  dsimp only
  rw [kept_text h, if_pos hdigit]
  obtain ⟨c, rest, hc, hchars⟩ := n.exists_digit
  rw [h, powerText, List.append_nil] at hchars
  have hunsigned := readUnsigned_text n.negative n h
  rw [Numeral.text, h, powerText, List.append_nil]
  cases hsign : n.negative with
  | true =>
      rw [hsign] at hunsigned
      exact hunsigned
  | false =>
      rw [hsign, hchars] at hunsigned
      rw [hchars]
      show readKept (c :: rest) = _
      unfold readKept
      split
      · rename_i heq
        obtain ⟨rfl, -⟩ := List.cons.inj heq
        cases hc
      · exact hunsigned

end Reading

section Texts

variable {x : Binary64}

/-- A number that is not finite, or is written positionally, is read from its text. -/
theorem parse_format (hx : x.isFinite = true → isPositional x = true) : parse (format x) = x := by
  rw [parse, format, String.toList_ofList]
  cases x with
  | nan => decide
  | infinity s => cases s <;> decide
  | finite s m e h =>
      obtain ⟨n, htext, hpower, hrounds⟩ := exists_numeral (x := .finite s m e h) rfl
      rw [n.magnitude_eq] at hrounds
      rw [← htext, parseChars_text (hpower.mpr (hx rfl)), Decimal.toBinary64_eq_iff_rounds rfl]
      exact hrounds

/-- The text of a number has no line breaks. -/
theorem toChars_no_break (x : Binary64) : '\n' ∉ toChars x ∧ '\r' ∉ toChars x := by
  cases x with
  | nan => decide
  | infinity s => cases s <;> decide
  | finite s m e h =>
      obtain ⟨n, htext, -, -⟩ := exists_numeral (x := .finite s m e h) rfl
      rw [← htext]
      exact ⟨n.notMem_text rfl (by decide), n.notMem_text rfl (by decide)⟩

/-- **What is printed is read back.**  A number that is not finite, or is zero, or has a magnitude
from `0.0001` up to `10 ^ 15`, is read from its text; and the bytes that are written as its line are
read as that line, whatever follows them. -/
theorem printed_reads_back (x : Binary64)
    (hx : x.isFinite = true → x.value = 0 ∨ 1 / 10 ^ 4 ≤ |x.value| ∧ |x.value| < 10 ^ 15) :
    parse (format x) = x ∧
      ∃ line : List UInt8,
        (∀ writer : Console,
          (writer.NeverFails → (writer.writeLine (format x).toList).1 = .ok ()) ∧
          ((writer.writeLine (format x).toList).1 = .ok () →
            (writer.writeLine (format x).toList).2.output.handed = writer.output.handed ++ line)) ∧
        ∀ (reader : Console) (rest : List UInt8), reader.flush.1 = .ok () →
          reader.input.rest = line ++ rest →
          reader.readLine.1 = .ok (some (format x).toList) ∧
            reader.readLine.2.input.rest = rest := by
  have hchars : (format x).toList = toChars x := String.toList_ofList
  obtain ⟨hnewline, hreturn⟩ := toChars_no_break x
  refine ⟨parse_format fun hfinite => (isPositional_iff hfinite).mpr (hx hfinite),
    Console.lineOf (toChars x), ?_, ?_⟩
  · intro writer
    rw [hchars]
    exact ⟨fun hnever => (hnever.writeLine _).1, Console.handed_writeLine⟩
  · intro reader rest hflush hrest
    rw [hchars]
    exact Console.readLine_of_line hnewline hreturn hflush hrest

/-- The negative number at the lower limit. -/
theorem printed_reads_back_limit :
    let x := Binary64.finite true 7378697629483821 1008 (by decide)
    (1 / 10 ^ 4 ≤ |x.value| ∧ |x.value| < 10 ^ 15) ∧ format x = "-0.0001" ∧ parse "-0.0001" = x ∧
      ∃ line : List UInt8,
        (∀ writer : Console,
          (writer.NeverFails → (writer.writeLine "-0.0001".toList).1 = .ok ()) ∧
          ((writer.writeLine "-0.0001".toList).1 = .ok () →
            (writer.writeLine "-0.0001".toList).2.output.handed = writer.output.handed ++ line)) ∧
        ∀ (reader : Console) (rest : List UInt8), reader.flush.1 = .ok () →
          reader.input.rest = line ++ rest →
          reader.readLine.1 = .ok (some "-0.0001".toList) ∧
            reader.readLine.2.input.rest = rest := by
  intro x
  have hrange : 1 / 10 ^ 4 ≤ |x.value| ∧ |x.value| < 10 ^ 15 :=
    ⟨(positionalFrom_lessEq_iff rfl).mp (by decide +kernel),
      (less_positionalBelow_iff rfl).mp (by decide +kernel)⟩
  have htext : format x = "-0.0001" := by decide +kernel
  have hreads := printed_reads_back x fun _ => Or.inr hrange
  rw [htext] at hreads
  exact ⟨hrange, htext, hreads⟩

end Texts

end Number

end ErrorFree
