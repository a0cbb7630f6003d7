import ErrorFree.Proofs.Toml.Literals

/-!
# Lines of a TOML document

**Lines.**  A `Line` is a header or a setting, with a bare key and a literal.  `Ended` and `Written` say
which texts consist of given lines: lines end in either way, empty lines may stand anywhere, and the
last line need not have an end.

**Results.**
* `statements_written`: the statements of such a text are those of its lines, in order.
* `statements_key`: where a key stands at the start of a line, the text has no statements, or that
  line assigns the key.  What the line gives it, and what follows, is left open.
-/

namespace ErrorFree

namespace Toml

section Writing

/-- One or more characters of a bare key. -/
structure IsBare (name : String) : Prop where
  ne_empty : name ≠ ""
  all : ∀ c ∈ name.toList, isBareKey c = true

instance (name : String) : Decidable (IsBare name) :=
  decidable_of_iff (name ≠ "" ∧ name.toList.all isBareKey = true)
    ⟨fun h => ⟨h.1, List.all_eq_true.mp h.2⟩, fun h => ⟨h.ne_empty, List.all_eq_true.mpr h.all⟩⟩

/-- A line that says something. -/
inductive Line where
  /-- `[name]` -/
  | header (name : String)
  /-- `key = literal` -/
  | setting (key : String) (literal : Literal)
  deriving DecidableEq, Repr

namespace Line

/-- The start of a line that sets a key. -/
def keyText (key : String) : List Char := key.toList ++ [' ', '=', ' ']

/-- A line as it is written, without its end. -/
def text : Line → List Char
  | .header name => '[' :: (name.toList ++ [']'])
  | .setting key literal => keyText key ++ literal.text

/-- What a line says. -/
def statement : Line → Statement
  | .header name => .table [name]
  | .setting key literal => .assignment [key] literal.value

/-- The names in a line are bare, and its literal is in range. -/
def Plain : Line → Prop
  | .header name => IsBare name
  | .setting key literal => IsBare key ∧ literal.Fits

end Line

/-- The end of a line. -/
inductive IsLineEnd : List Char → Prop
  | newline : IsLineEnd ['\n']
  | returnNewline : IsLineEnd ['\r', '\n']

/-- A text of some lines, each with its end, and of empty lines anywhere between them. -/
inductive Ended : List Line → List Char → Prop
  | nil : Ended [] []
  | empty {lines : List Line} {ending text : List Char} :
      IsLineEnd ending → Ended lines text → Ended lines (ending ++ text)
  | cons {line : Line} {lines : List Line} {ending text : List Char} :
      IsLineEnd ending → Ended lines text → Ended (line :: lines) (line.text ++ (ending ++ text))

/-- The lines one under the other. -/
def stacked (lines : List Line) : List Char := lines.flatMap fun line => line.text ++ ['\n']

theorem ended_stacked (lines : List Line) : Ended lines (stacked lines) := by
  induction lines with
  | nil => exact .nil
  | cons line lines ih =>
      rw [stacked, List.flatMap_cons, List.append_assoc]
      exact .cons .newline ih

/-- A text of some lines; the last one may be without an end. -/
def Written (lines : List Line) (text : List Char) : Prop :=
  Ended lines text ∨
    ∃ init last start, lines = init ++ [last] ∧ Ended init start ∧ text = start ++ last.text

end Writing

section Names

variable {name : String} {rest : List Char} {c d : Char}

theorem ne_of_isBareKey (hc : isBareKey c = true) (hd : isBareKey d = false) : c ≠ d := by
  rintro rfl
  rw [hc] at hd
  cases hd

theorem IsBare.exists_cons (h : IsBare name) :
    ∃ c chars, name.toList = c :: chars ∧ isBareKey c = true := by
  obtain ⟨c, chars, hchars⟩ := List.exists_cons_of_ne_nil
    (fun hnil => h.ne_empty (String.toList_eq_nil_iff.mp hnil) : name.toList ≠ [])
  exact ⟨c, chars, hchars, h.all c (hchars ▸ List.mem_cons_self)⟩

/-- What follows does not go on with the characters of a bare key. -/
def StopsKey (rest : List Char) : Prop := ∀ c ∈ rest.head?, isBareKey c = false

theorem takeWhile_bare (h : IsBare name) (hrest : StopsKey rest) :
    (name.toList ++ rest).takeWhile isBareKey = name.toList := by
  rw [List.takeWhile_append_of_pos h.all]
  cases rest with
  | nil => exact List.append_nil _
  | cons c rest =>
      rw [List.takeWhile_cons_of_neg (Bool.eq_false_iff.mp (hrest c rfl)), List.append_nil]

theorem dropWhile_bare (h : IsBare name) (hrest : StopsKey rest) :
    (name.toList ++ rest).dropWhile isBareKey = rest := by
  rw [List.dropWhile_append_of_pos h.all]
  cases rest with
  | nil => rfl
  | cons c rest => rw [List.dropWhile_cons_of_neg (Bool.eq_false_iff.mp (hrest c rfl))]

theorem key_bare (h : IsBare name) (hrest : StopsKey rest) :
    key (name.toList ++ rest) = some (name, rest) := by
  obtain ⟨c, chars, hchars, hc⟩ := h.exists_cons
  have htake := takeWhile_bare h hrest
  have hdrop := dropWhile_bare h hrest
  rw [hchars, List.cons_append] at htake hdrop ⊢
  rw [key]
  · rw [htake, hdrop]
    simp [← hchars]
  · intro tail heq
    exact ne_of_isBareKey hc (by decide) (List.cons.inj heq).1
  · intro tail heq
    exact ne_of_isBareKey hc (by decide) (List.cons.inj heq).1

theorem skipBlanks_of_not_blank {text : List Char} (hc : isBlank c = false) :
    skipBlanks (c :: text) = c :: text :=
  List.dropWhile_cons_of_neg (Bool.eq_false_iff.mp hc)

theorem isBlank_of_isBareKey (hc : isBareKey c = true) : isBlank c = false := by
  simp only [isBlank, Bool.or_eq_false_iff, decide_eq_false_iff_not]
  exact ⟨ne_of_isBareKey hc (by decide), ne_of_isBareKey hc (by decide)⟩

/-- A bare key is a path of one key, unless a point follows. -/
theorem keys_bare {fuel : Nat} (h : IsBare name) (hrest : StopsKey rest)
    (hpoint : (skipBlanks rest).head? ≠ some '.') :
    keys (fuel + 1) (name.toList ++ rest) = some ([name], skipBlanks rest) := by
  obtain ⟨c, chars, hchars, hc⟩ := h.exists_cons
  have hskip : skipBlanks (name.toList ++ rest) = name.toList ++ rest := by
    rw [hchars]
    exact skipBlanks_of_not_blank (isBlank_of_isBareKey hc)
  rw [keys, hskip, key_bare h hrest]
  simp only [Option.bind_eq_bind, Option.bind_some]
  split
  · rename_i heq
    rw [heq] at hpoint
    exact absurd rfl hpoint
  · rfl

end Names

section Statements

variable {rest tail : List Char} {fuel : Nat}

theorem read_header {name : String} (h : IsBare name) (rest : List Char) :
    Statement.read ((Line.header name).text ++ rest) = some (.table [name], rest) := by
  obtain ⟨c, chars, hchars, hc⟩ := h.exists_cons
  have hstops : StopsKey (']' :: rest) := by
    rintro c ⟨⟩
    rfl
  have hkeys : keyPath (name.toList ++ ']' :: rest) = some ([name], ']' :: rest) :=
    keys_bare h hstops (by simp [skipBlanks, isBlank])
  have htext : (Line.header name).text ++ rest = '[' :: (name.toList ++ ']' :: rest) := by
    simp [Line.text]
  rw [htext, Statement.read]
  · rw [Statement.header, hkeys]
    rfl
  · intro more hmore
    rw [hchars] at hmore
    exact ne_of_isBareKey hc (by decide) (List.cons.inj hmore).1

/-- A key, an equals sign and whatever follows. -/
theorem read_key {key : String} (h : IsBare key) (rest : List Char) :
    Statement.read (Line.keyText key ++ rest) =
      (value (nestingBound - 1) (skipBlanks rest)).map fun (v, rest) =>
        (.assignment [key] v, rest) := by
  obtain ⟨c, chars, hchars, hc⟩ := h.exists_cons
  have hstops : StopsKey (' ' :: '=' :: ' ' :: rest) := by
    rintro c ⟨⟩
    rfl
  have hkeys : keyPath (key.toList ++ ' ' :: '=' :: ' ' :: rest) = some ([key], '=' :: ' ' :: rest) :=
    keys_bare h hstops (by simp [skipBlanks, isBlank])
  have htext : Line.keyText key ++ rest = key.toList ++ ' ' :: '=' :: ' ' :: rest := by
    simp [Line.keyText]
  have hread : Toml.assignment (value (nestingBound - 1)) (key.toList ++ ' ' :: '=' :: ' ' :: rest) =
      (value (nestingBound - 1) (skipBlanks rest)).map fun (v, rest) => (([key], v), rest) := by
    rw [Toml.assignment, hkeys, Option.map_eq_bind]
    rfl
  have hbracket : ∀ more, c :: (chars ++ ' ' :: '=' :: ' ' :: rest) ≠ '[' :: more := by
    intro more hmore
    exact ne_of_isBareKey hc (by decide) (List.cons.inj hmore).1
  rw [htext]
  rw [hchars, List.cons_append] at hread ⊢
  rw [Statement.read]
  · rw [hread, Option.map_map]
    rfl
  · exact fun more => hbracket _
  · exact fun more => hbracket _

theorem lineEnd?_of_isLineEnd {ending : List Char} (h : IsLineEnd ending) (rest : List Char) :
    lineEnd? (ending ++ rest) = some rest := by
  cases h with
  | newline => simp [lineEnd?, skipBlanks, isBlank, skipComment, newline?]
  | returnNewline => simp [lineEnd?, skipBlanks, isBlank, skipComment, newline?]

theorem IsLineEnd.closes {ending : List Char} (h : IsLineEnd ending) (rest : List Char) :
    Closes (ending ++ rest) := by
  cases h with
  | newline =>
      rintro c ⟨⟩
      exact Or.inl rfl
  | returnNewline =>
      rintro c ⟨⟩
      exact Or.inr rfl

theorem skipBlanks_literal (literal : Literal) (rest : List Char) :
    skipBlanks (literal.text ++ rest) = literal.text ++ rest := by
  cases literal with
  | boolean b => cases b <;> exact skipBlanks_of_not_blank rfl
  | natural n =>
      obtain ⟨c, ds, hdigits, hc, -, -⟩ := exists_toDigits_eq_cons n
      have hblank : isBlank c = false := by
        simp only [isBlank, Bool.or_eq_false_iff, decide_eq_false_iff_not]
        constructor
        · rintro rfl
          cases hc
        · rintro rfl
          cases hc
      show skipBlanks (Nat.toDigits 10 n ++ rest) = Nat.toDigits 10 n ++ rest
      rw [hdigits]
      exact skipBlanks_of_not_blank hblank

/-- A line is read as its statement. -/
theorem read_line {line : Line} (h : line.Plain) (hrest : Closes rest) :
    Statement.read (line.text ++ rest) = some (line.statement, rest) := by
  cases line with
  | header name => exact read_header h rest
  | setting key literal =>
      rw [Line.text, List.append_assoc, read_key h.1, skipBlanks_literal,
        value_literal h.2 _ hrest]
      rfl

/-- The first character of a statement: no blank, no comment and no line end. -/
def Opens (c : Char) : Prop := c = '[' ∨ isBareKey c = true

theorem Opens.ne {c d : Char} (h : Opens c) (hbracket : d ≠ '[') (hd : isBareKey d = false) :
    c ≠ d := by
  rcases h with rfl | hc
  · exact Ne.symm hbracket
  · exact ne_of_isBareKey hc hd

theorem Line.exists_opens {line : Line} (h : line.Plain) (rest : List Char) :
    ∃ c more, line.text ++ rest = c :: more ∧ Opens c := by
  cases line with
  | header name => exact ⟨'[', _, rfl, Or.inl rfl⟩
  | setting key literal =>
      obtain ⟨c, chars, hchars, hc⟩ := h.1.exists_cons
      refine ⟨c, chars ++ [' ', '=', ' '] ++ literal.text ++ rest, ?_, Or.inr hc⟩
      rw [Line.text, Line.keyText, hchars]
      rfl

theorem statementsFrom_of_opens {c : Char} {text : List Char} (h : Opens c) :
    statementsFrom (fuel + 1) (c :: text) =
      (Statement.read (c :: text)).bind fun result =>
        ((lineEnd? result.2).bind (statementsFrom fuel)).map (result.1 :: ·) := by
  have hblank : isBlank c = false := by
    simp only [isBlank, Bool.or_eq_false_iff, decide_eq_false_iff_not]
    exact ⟨h.ne (by decide) (by decide), h.ne (by decide) (by decide)⟩
  have hline : ¬ (c = '#' ∨ c = '\n' ∨ c = '\r') := by
    simp only [not_or]
    exact ⟨h.ne (by decide) (by decide), h.ne (by decide) (by decide), h.ne (by decide) (by decide)⟩
  rw [statementsFrom, skipBlanks_of_not_blank hblank]
  simp only [if_neg hline]
  cases hread : Statement.read (c :: text) with
  | none => rfl
  | some result =>
      rw [Option.bind_some, Option.map_eq_bind]
      rfl

theorem statementsFrom_nil (fuel : Nat) : statementsFrom fuel [] = some [] := by
  cases fuel <;> rfl

theorem statementsFrom_line {line : Line} {ending : List Char} (h : line.Plain)
    (hending : IsLineEnd ending) (rest : List Char) :
    statementsFrom (fuel + 1) (line.text ++ (ending ++ rest)) =
      (statementsFrom fuel rest).map (line.statement :: ·) := by
  obtain ⟨c, more, htext, hopens⟩ := Line.exists_opens h (ending ++ rest)
  have hread := read_line h (hending.closes rest)
  rw [htext] at hread ⊢
  rw [statementsFrom_of_opens hopens, hread, Option.bind_some,
    lineEnd?_of_isLineEnd hending, Option.bind_some]

theorem statementsFrom_last {line : Line} (h : line.Plain) :
    statementsFrom (fuel + 1) line.text = some [line.statement] := by
  obtain ⟨c, more, htext, hopens⟩ := Line.exists_opens h []
  have hread : Statement.read (line.text ++ []) = some (line.statement, []) := by
    apply read_line h
    intro c hc
    cases hc
  rw [htext] at hread
  rw [← List.append_nil line.text, htext, statementsFrom_of_opens hopens, hread]
  show (statementsFrom fuel []).map (line.statement :: ·) = _
  rw [statementsFrom_nil]
  rfl

theorem statementsFrom_empty {ending : List Char} (h : IsLineEnd ending) (rest : List Char) :
    statementsFrom (fuel + 1) (ending ++ rest) = statementsFrom fuel rest := by
  have hend := lineEnd?_of_isLineEnd h rest
  cases h with
  | newline =>
      show (lineEnd? ('\n' :: rest)).bind (statementsFrom fuel) = _
      rw [List.singleton_append] at hend
      rw [hend, Option.bind_some]
  | returnNewline =>
      show (lineEnd? ('\r' :: '\n' :: rest)).bind (statementsFrom fuel) = _
      rw [List.cons_append, List.singleton_append] at hend
      rw [hend, Option.bind_some]

theorem IsLineEnd.length_pos {ending : List Char} (h : IsLineEnd ending) : 0 < ending.length := by
  cases h <;> decide

/-- **The lines of a text are its statements**, whatever follows them. -/
theorem statementsFrom_ended {lines : List Line} {text : List Char} (hended : Ended lines text)
    (hplain : ∀ line ∈ lines, line.Plain) (hfuel : (text ++ tail).length ≤ fuel) :
    ∃ left, tail.length ≤ left ∧
      statementsFrom fuel (text ++ tail) =
        (statementsFrom left tail).map (lines.map Line.statement ++ ·) := by
  -- A line uses up one unit of fuel and at least the character that ends it.
  induction hended generalizing fuel with
  | nil => exact ⟨fuel, hfuel, by simp⟩
  | @empty lines ending text hending hended ih =>
      have hpos := hending.length_pos
      simp only [List.append_assoc, List.length_append] at hfuel ih ⊢
      obtain ⟨fuel, rfl⟩ : ∃ less, fuel = less + 1 := ⟨fuel - 1, by omega⟩
      obtain ⟨left, hleft, hread⟩ := ih hplain (by omega : text.length + tail.length ≤ fuel)
      exact ⟨left, hleft, (statementsFrom_empty hending _).trans hread⟩
  | @cons line lines ending text hending hended ih =>
      have hpos := hending.length_pos
      simp only [List.append_assoc, List.length_append] at hfuel ih ⊢
      obtain ⟨fuel, rfl⟩ : ∃ less, fuel = less + 1 := ⟨fuel - 1, by omega⟩
      obtain ⟨left, hleft, hread⟩ := ih (fun other h => hplain other (List.mem_cons_of_mem line h))
        (by omega : text.length + tail.length ≤ fuel)
      refine ⟨left, hleft, ?_⟩
      rw [statementsFrom_line (hplain line List.mem_cons_self) hending, hread, Option.map_map]
      rfl

theorem Ended.head?_ne {lines : List Line} {text : List Char} (hended : Ended lines text)
    (hplain : ∀ line ∈ lines, line.Plain) (htail : ∀ c ∈ tail.head?, Opens c) :
    ∀ c ∈ (text ++ tail).head?, c ≠ '\uFEFF' := by
  cases hended with
  | nil => exact fun c hc => (htail c hc).ne (by decide) (by decide)
  | empty hending hended =>
      cases hending <;> rintro c ⟨⟩ <;> decide
  | @cons line lines ending text hending hended =>
      obtain ⟨c, more, htext, hopens⟩ := Line.exists_opens (hplain line List.mem_cons_self)
        (ending ++ text ++ tail)
      rw [List.append_assoc, htext]
      rintro c ⟨⟩
      exact hopens.ne (by decide) (by decide)

/-- There is no byte order mark in front of lines or of a statement. -/
theorem statements_ended {lines : List Line} {text : List Char} (hended : Ended lines text)
    (hplain : ∀ line ∈ lines, line.Plain) (htail : ∀ c ∈ tail.head?, Opens c) :
    ∃ left, tail.length ≤ left ∧
      statements (text ++ tail) =
        (statementsFrom left tail).map (lines.map Line.statement ++ ·) := by
  have hhead := hended.head?_ne hplain htail
  obtain ⟨left, hleft, hread⟩ := statementsFrom_ended hended hplain (Nat.le_refl (text ++ tail).length)
  refine ⟨left, hleft, ?_⟩
  rw [← hread, statements]
  intro rest heq
  rw [heq] at hhead
  exact hhead _ rfl rfl

/-- The statements of a text of lines. -/
theorem statements_written {lines : List Line} {text : List Char} (hwritten : Written lines text)
    (hplain : ∀ line ∈ lines, line.Plain) :
    statements text = some (lines.map Line.statement) := by
  rcases hwritten with hended | ⟨init, last, start, rfl, hended, rfl⟩
  · have hnone : ∀ c ∈ ([] : List Char).head?, Opens c := by
      intro c hc
      cases hc
    obtain ⟨left, -, hread⟩ := statements_ended hended hplain hnone
    rw [List.append_nil] at hread
    rw [hread, statementsFrom_nil]
    simp
  · have hlast : last.Plain := hplain last (List.mem_append_right _ List.mem_cons_self)
    obtain ⟨c, more, htext, hopens⟩ := Line.exists_opens hlast []
    rw [List.append_nil] at htext
    have hhead : ∀ c ∈ last.text.head?, Opens c := by
      rw [htext]
      rintro c ⟨⟩
      exact hopens
    obtain ⟨left, hleft, hread⟩ :=
      statements_ended hended (fun line h => hplain line (List.mem_append_left _ h)) hhead
    rw [htext, List.length_cons] at hleft
    obtain ⟨left, rfl⟩ : ∃ less, left = less + 1 := ⟨left - 1, by omega⟩
    rw [hread, statementsFrom_last hlast]
    simp

/-- The statements of a text of lines with a key behind them: there are none, or the key is assigned
something and others follow. -/
theorem statements_key {lines : List Line} {text : List Char} {key : String}
    (hended : Ended lines text) (hplain : ∀ line ∈ lines, line.Plain) (hkey : IsBare key)
    (rest : List Char) :
    statements (text ++ (Line.keyText key ++ rest)) = none ∨
      ∃ v more, statements (text ++ (Line.keyText key ++ rest)) =
        some (lines.map Line.statement ++ .assignment [key] v :: more) := by
  obtain ⟨c, chars, hchars, hc⟩ := hkey.exists_cons
  obtain ⟨more, hmore⟩ : ∃ more, Line.keyText key ++ rest = c :: more := by
    rw [Line.keyText, hchars]
    exact ⟨_, rfl⟩
  have hopens : Opens c := Or.inr hc
  have hhead : ∀ c ∈ (Line.keyText key ++ rest).head?, Opens c := by
    rw [hmore]
    rintro c ⟨⟩
    exact hopens
  obtain ⟨left, hleft, hread⟩ := statements_ended hended hplain hhead
  rw [hmore, List.length_cons] at hleft
  obtain ⟨left, rfl⟩ : ∃ less, left = less + 1 := ⟨left - 1, by omega⟩
  rw [hread, hmore, statementsFrom_of_opens hopens, ← hmore, read_key hkey]
  cases value (nestingBound - 1) (skipBlanks rest) with
  | none => exact Or.inl rfl
  | some result =>
      simp only [Option.map_some, Option.bind_some]
      cases (lineEnd? result.2).bind (statementsFrom left) with
      | none => exact Or.inl rfl
      | some statements => exact Or.inr ⟨_, _, rfl⟩

end Statements

end Toml

end ErrorFree
