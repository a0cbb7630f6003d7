import ErrorFree.Proofs.Console.Reads
import ErrorFree.Proofs.Machine.Instruction
import ErrorFree.Proofs.Text.Lossy

/-!
# Numbers in lines that are not valid text

**Characters kept.**  Only characters below 128 belong to a number, so that a text and its characters
below 128 give the same (`kept_filter_isAscii`).  These are the bytes below 128 of the line, valid or
not (`Utf8.filter_isAscii_of_decodes`).

**Result.**  `garbled_line_reads_ascii`: the number that is read from a line is the number in its
bytes below 128, unless one of the two texts is a word.
-/

namespace ErrorFree

namespace Number

/-- The words that are read as a whole. -/
def words : List (List Char) := ["Infinity", "-Infinity", "NaN"].map String.toList

section Kept

variable {text other : List Char} {c : Char}

/-- A character that can belong to a number. -/
def belongs (c : Char) : Bool := c.isDigit || c = '-' || c = '.'

/-- Other characters make no difference to what is kept. -/
theorem kept_filter_belongs (started dotted : Bool) (text : List Char) :
    kept started dotted (text.filter belongs) = kept started dotted text := by
  induction text generalizing started dotted with
  | nil => rfl
  | cons c rest ih =>
      cases hc : belongs c with
      | true => simp only [List.filter_cons, hc, if_true, kept, ih]
      | false =>
          simp only [belongs, Bool.or_eq_false_iff, decide_eq_false_iff_not] at hc
          simp [belongs, kept, hc, ih]

theorem kept_eq_of_filter_eq (h : text.filter belongs = other.filter belongs) :
    kept false false text = kept false false other := by
  rw [← kept_filter_belongs, h, kept_filter_belongs]

theorem isAscii_of_belongs (h : belongs c = true) : Utf8.isAscii c = true := by
  simp only [belongs, Bool.or_eq_true, decide_eq_true_eq] at h
  rcases h with (hdigit | rfl) | rfl
  · simp only [Char.isDigit, Bool.and_eq_true, decide_eq_true_eq, UInt32.le_iff_toNat_le] at hdigit
    exact decide_eq_true (Nat.lt_of_le_of_lt hdigit.2 (by decide))
  · rfl
  · rfl

/-- Characters above 127 can be left out first. -/
theorem filter_belongs_filter_isAscii (text : List Char) :
    (text.filter Utf8.isAscii).filter belongs = text.filter belongs := by
  rw [List.filter_filter]
  apply List.filter_congr
  intro c _
  cases hc : belongs c with
  | true => rw [isAscii_of_belongs hc, Bool.and_self]
  | false => rfl

/-- Apart from the words, a number depends on the characters that are kept only. -/
theorem parseChars_eq_of_kept_eq (htext : text ∉ words) (hother : other ∉ words)
    (h : kept false false text = kept false false other) : parseChars text = parseChars other := by
  simp only [words, List.map_cons, List.map_nil, List.mem_cons, List.not_mem_nil, or_false,
    not_or] at htext hother
  simp only [parseChars, htext, hother, if_false, h]

end Kept

section Lines

variable {c : Console} {line b : List UInt8} {items : List (Option Char)}

/-- The text of a line keeps what its bytes below 128 keep. -/
theorem kept_decoded (h : Utf8.Decodes line items)
    (hline : line = b ∨ line ++ [Input.carriageReturn] = b) :
    kept false false (items.map fun item => item.getD '\uFFFD') =
      kept false false (Utf8.asciiText b) := by
  apply kept_eq_of_filter_eq
  rw [← filter_belongs_filter_isAscii, Utf8.filter_isAscii_of_decodes h]
  rcases hline with rfl | rfl
  · rfl
  · simp [Utf8.asciiText, Input.carriageReturn, belongs]

/-- Bytes without a newline are delivered as a line if an end or nothing follows them, and then
without a carriage return that stands in front of a newline. -/
theorem delivers_of_line (hb : Input.newline ∉ b) (ending : LineEnd) (rest : List UInt8) :
    ∃ line, (line = b ∨ line ++ [Input.carriageReturn] = b) ∧
      Delivers .line (b ++ ending.bytes) (some (.line (Utf8.decodeLossy line))) rest := by
  cases ending with
  | returnNewline => exact ⟨b, Or.inl rfl, .returnLine rest hb⟩
  | newline =>
      by_cases hlast : b.getLast? = some Input.carriageReturn
      · obtain ⟨line, rfl⟩ := List.getLast?_eq_some_iff.mp hlast
        have hline : Input.newline ∉ line := fun h => hb (List.mem_append_left _ h)
        have hdelivers := Delivers.returnLine rest hline
        rw [LineEnd.bytes, List.append_cons] at hdelivers
        exact ⟨line, Or.inr rfl, hdelivers⟩
      · exact ⟨b, Or.inl rfl, .line rest hb hlast⟩

/-- The next line of the input is `b`: an end follows it, or the end of an input that does not fail. -/
def NextLine (b : List UInt8) (i : Input) : Prop :=
  (∃ (ending : LineEnd) (rest : List UInt8), i.rest = b ++ ending.bytes ++ rest) ∨
    b ≠ [] ∧ i.rest = b ∧ i.failing = false

/-- The next line is read as the text of its bytes, whether they are valid or not. -/
theorem readLine_of_nextLine (hb : Input.newline ∉ b) (hflush : c.flush.1 = .ok ())
    (hline : NextLine b c.input) :
    ∃ line, (line = b ∨ line ++ [Input.carriageReturn] = b) ∧
      c.readLine.1 = .ok (some (Utf8.decodeLossy line)) := by
  obtain ⟨line, raw, rest, hsame, hends, hrest, hdelivers⟩ : ∃ line raw rest,
      (line = b ∨ line ++ [Input.carriageReturn] = b) ∧
      (c.input.failing = true → Input.newline ∈ raw) ∧ c.input.rest = raw ++ rest ∧
      Delivers .line raw (some (.line (Utf8.decodeLossy line))) rest := by
    rcases hline with ⟨ending, rest, hrest⟩ | ⟨hne, hrest, hfails⟩
    · obtain ⟨line, hsame, hdelivers⟩ := delivers_of_line hb ending rest
      have hend : Input.newline ∈ b ++ ending.bytes := by cases ending <;> simp [LineEnd.bytes]
      exact ⟨line, _, rest, hsame, fun _ => hend, hrest, hdelivers⟩
    · refine ⟨b, b, [], Or.inl rfl, ?_, ?_, .lastLine hb hne⟩
      · intro hfailing
        rw [hfails] at hfailing
        cases hfailing
      · rw [hrest, List.append_nil]
  obtain ⟨given, hread, hgiven⟩ := Input.readLine_of_delivers hends hrest hdelivers
  refine ⟨line, hsame, ?_⟩
  rw [Console.readLine_of_flushed (Prod.ext hflush rfl), hread]
  cases given with
  | none => cases hgiven
  | some given =>
      have htext := Piece.line.inj (Option.some.inj hgiven)
      exact congrArg (fun text => Except.ok (some text)) htext

/-- **Invalid text never garbles a number.**  Let the next line of the input be any bytes without a
newline.  It is read as its text, with a replacement character for each maximal invalid subpart.  What
is kept of this text is what is kept of the bytes below 128 alone; so, unless one of the two is a
word, they are the same number.  The number of the text is what the instruction `O` pushes. -/
theorem garbled_line_reads_ascii (c : Console) (b : List UInt8) (hb : Input.newline ∉ b)
    (hflush : c.flush.1 = .ok ()) (hline : NextLine b c.input) :
    ∃ line items text, (line = b ∨ line ++ [Input.carriageReturn] = b) ∧
      Utf8.Decodes line items ∧ text = items.map (fun item => item.getD '\uFFFD') ∧
      c.readLine.1 = .ok (some text) ∧
      kept false false text = kept false false (Utf8.asciiText b) ∧
      (text ∉ words → Utf8.asciiText b ∉ words →
        parseChars text = parseChars (Utf8.asciiText b)) ∧
      ∀ (settings : RuntimeSettings) (length cursor : Nat) (m : Machine), m.console = c →
        settings.autoZero = false →
        (m.execute settings length cursor .getNumber).1 = .ok (cursor + 1) ∧
        (m.execute settings length cursor .getNumber).2.stack =
          m.stack.push (parseChars text) := by
  obtain ⟨line, hsame, hread⟩ := readLine_of_nextLine hb hflush hline
  have hdecodes : Utf8.Decodes line (Utf8.decodeItems line) := Utf8.decodes_iff.mpr rfl
  have hkept := kept_decoded hdecodes hsame
  refine ⟨line, _, _, hsame, hdecodes, rfl, hread, hkept, ?_, ?_⟩
  · intro htext hascii
    exact parseChars_eq_of_kept_eq htext hascii hkept
  · rintro settings length cursor m rfl hauto
    have hexecute : m.execute settings length cursor .getNumber =
        Machine.proceed cursor m.getNumber := by
      rw [Machine.execute, hauto]
      rfl
    rw [hexecute, Machine.proceed_eq, Machine.getNumber_eq, hread]
    exact ⟨rfl, rfl⟩

/-- A character cut off before a digit, an overlong form, a surrogate and a stray byte. -/
theorem garbled_line_reads_ascii_mixed :
    let b : List UInt8 :=
      [0xE2, 0x82, 0x31, 0xC0, 0x80, 0x32, 0xED, 0xA0, 0x80, 0x2E, 0x80, 0x35, 0xF0, 0x9F]
    let c : Console := ⟨{ rest := b ++ [Input.newline] }, {}⟩
    Input.newline ∉ b ∧ c.flush.1 = .ok () ∧ NextLine b c.input ∧
      ∃ text, c.readLine.1 = .ok (some text) ∧ kept false false text = "12.5".toList ∧
        text ∉ words ∧ parseChars text = parseChars "12.5".toList := by
  intro b c
  have hb : Input.newline ∉ b := by decide
  have hline : NextLine b c.input := Or.inl ⟨.newline, [], rfl⟩
  obtain ⟨_, _, text, -, -, -, hread, hkept, hvalue, -⟩ :=
    garbled_line_reads_ascii c b hb rfl hline
  have hascii : Utf8.asciiText b = "12.5".toList := by decide
  rw [hascii] at hkept hvalue
  have htext : text ∉ words := by
    intro hmem
    have hwords : ∀ word ∈ words, kept false false word ≠ kept false false "12.5".toList := by
      decide
    exact hwords text hmem hkept
  exact ⟨hb, rfl, hline, text, hread, hkept, htext, hvalue htext (by decide)⟩

end Lines

end Number

end ErrorFree
