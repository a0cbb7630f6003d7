import ErrorFree.Proofs.Console.Lines

/-!
# Reads from one stream

Bytes and lines are read from the same stream, in any order: a read of a byte may take a line apart,
or the two bytes of its end.

**One read.**  `Delivers` says what a read takes from the front of the bytes that are left, and what
it gives for them: one byte, a line with its end, what is left without an end, or nothing.
`exists_delivers` says that one of these is always possible, and `Offers.read_of_delivers` that the
console follows it.

**Many reads.**  `Console.readings` keeps a log of reads: for each one the bytes that left the input,
and what was given.

**Result.**  `readings_in_order`: the bytes of the log, one read after the other, are what is gone
from the front of the input; and a text in lines is read line by line.
-/

namespace ErrorFree

/-- What can be asked of an input. -/
inductive ReadRequest where
  | byte
  | line
  deriving DecidableEq

/-- What an input gives. -/
inductive Piece where
  | byte (value : UInt8)
  | line (text : List Char)
  deriving DecidableEq

/-- One read. -/
structure Reading where
  request : ReadRequest
  /-- The bytes that left the input. -/
  raw : List UInt8
  /-- What was given for them, nothing at the end of input. -/
  given : Option Piece
  deriving DecidableEq

/-- How a line ends. -/
inductive LineEnd where
  | newline
  | returnNewline

/-- The bytes that end a line. -/
def LineEnd.bytes : LineEnd → List UInt8
  | .newline => [Input.newline]
  | .returnNewline => [Input.carriageReturn, Input.newline]

/-- The bytes of a text as a line with an end. -/
def LineEnd.lineOf (line : List Char × LineEnd) : List UInt8 := Utf8.encode line.1 ++ line.2.bytes

/-- What a read takes from the bytes that are left, what it gives for them, and what then is left. -/
inductive Delivers : ReadRequest → List UInt8 → Option Piece → List UInt8 → Prop
  | byte (b : UInt8) (rest : List UInt8) : Delivers .byte [b] (some (.byte b)) rest
  | line {line : List UInt8} (rest : List UInt8) (hline : Input.newline ∉ line)
      (hlast : line.getLast? ≠ some Input.carriageReturn) :
      Delivers .line (line ++ LineEnd.newline.bytes) (some (.line (Utf8.decodeLossy line))) rest
  | returnLine {line : List UInt8} (rest : List UInt8) (hline : Input.newline ∉ line) :
      Delivers .line (line ++ LineEnd.returnNewline.bytes)
        (some (.line (Utf8.decodeLossy line))) rest
  | lastLine {line : List UInt8} (hline : Input.newline ∉ line) (hne : line ≠ []) :
      Delivers .line line (some (.line (Utf8.decodeLossy line))) []
  | nothing (request : ReadRequest) : Delivers request [] none []

namespace Delivers

variable {request : ReadRequest} {raw rest : List UInt8} {given : Option Piece}

/-- Nothing is given exactly if nothing is left. -/
theorem given_eq_none_iff (h : Delivers request raw given rest) :
    given = none ↔ raw ++ rest = [] := by
  cases h with
  | byte => simp
  | line => simp [LineEnd.bytes]
  | returnLine => simp [LineEnd.bytes]
  | lastLine _ hne => simp [hne]
  | nothing => simp

end Delivers

/-- Whatever is left, a read has something to take from it, or nothing is left. -/
theorem exists_delivers (request : ReadRequest) (bytes : List UInt8) :
    ∃ raw given rest, bytes = raw ++ rest ∧ Delivers request raw given rest := by
  cases request with
  | byte =>
      cases bytes with
      | nil => exact ⟨[], none, [], rfl, .nothing .byte⟩
      | cons b rest => exact ⟨[b], _, rest, rfl, .byte b rest⟩
  | line =>
      by_cases hmem : Input.newline ∈ bytes
      · obtain ⟨line, rest, rfl, hline⟩ := List.eq_append_cons_of_mem hmem
        by_cases hlast : line.getLast? = some Input.carriageReturn
        · obtain ⟨before, rfl⟩ := List.getLast?_eq_some_iff.mp hlast
          have hbefore : Input.newline ∉ before := fun h => hline (List.mem_append_left _ h)
          exact ⟨_, _, rest, by simp [LineEnd.bytes], .returnLine rest hbefore⟩
        · exact ⟨_, _, rest, by simp [LineEnd.bytes], .line rest hline hlast⟩
      · cases bytes with
        | nil => exact ⟨[], none, [], rfl, .nothing .line⟩
        | cons b rest => exact ⟨_, _, [], (List.append_nil _).symm, .lastLine hmem (by simp)⟩

namespace Input

variable {i : Input} {raw rest : List UInt8} {given : Option Piece}

/-- The input after a read that took some bytes. -/
def past (raw rest : List UInt8) (i : Input) : Input :=
  { i.attempt with rest, consumed := i.consumed + raw.length }

theorem readByte_of_delivers (hrest : i.rest = raw ++ rest) (hd : Delivers .byte raw given rest) :
    ∃ b, i.readByte = (b, i.past raw rest) ∧ b.map .byte = given := by
  cases hd with
  | byte b => exact ⟨some b, by simp [readByte, attempt, hrest, past], rfl⟩
  | nothing => exact ⟨none, by simp [readByte, attempt, hrest, past], rfl⟩

/-- A line is read as it can be delivered, unless a failure comes before its end. -/
theorem readLine_of_delivers (hends : i.failing = true → newline ∈ raw)
    (hrest : i.rest = raw ++ rest) (hd : Delivers .line raw given rest) :
    ∃ line, i.readLine = (line, i.past raw rest) ∧
      line.map (.line ∘ Utf8.decodeLossy) = given := by
  cases hd with
  | @line line _ hline hlast =>
      rw [LineEnd.bytes, List.append_assoc] at hrest
      refine ⟨some line, ?_, rfl⟩
      rw [readLine_of_ended hline hrest, withoutEnd_append hlast]
      simp [past, LineEnd.bytes]
  | @returnLine line _ hline =>
      have hline' : newline ∉ line ++ [carriageReturn] := by
        simpa [newline, carriageReturn] using hline
      have hrest' : i.rest = line ++ [carriageReturn] ++ newline :: rest := by
        simpa [LineEnd.bytes] using hrest
      refine ⟨some line, ?_, rfl⟩
      rw [readLine_of_ended hline' hrest']
      simp [past, LineEnd.bytes, withoutEnd]
  | lastLine hline hne =>
      have hlast : raw.getLast? ≠ some newline := fun hlast => hline (List.mem_of_getLast? hlast)
      have hfails : i.failing = false := by
        simpa using fun hfails => hline (hends hfails)
      rw [List.append_nil] at hrest
      refine ⟨some raw, ?_, rfl⟩
      simp [readLine, attempt, hrest, splitLine_of_notMem hline, hne, hfails, withoutEnd, hlast, past]
  | nothing => exact ⟨none, by simp [readLine, attempt, hrest, splitLine, past], rfl⟩

end Input

namespace Console

/-- Reads a byte or a line. -/
def read (request : ReadRequest) (c : Console) : Except IoError (Option Piece) × Console :=
  match request with
  | .byte => c.readByte.map (Except.map (Option.map .byte)) id
  | .line => c.readLine.map (Except.map (Option.map .line)) id

/-- The bytes that left the input between two states of a console. -/
def gone (before after : Console) : List UInt8 :=
  before.input.rest.take (before.input.rest.length - after.input.rest.length)

/-- Reads what is asked, one after the other, up to the first failure. -/
def readings : List ReadRequest → Console → Except IoError (List Reading) × Console
  | [], c => (.ok [], c)
  | request :: requests, c =>
      match c.read request with
      | (.error e, after) => (.error e, after)
      | (.ok given, after) =>
          (readings requests after).map (Except.map (⟨request, gone c after, given⟩ :: ·)) id

/-- Flushes succeed, and the input has some bytes left and then ends. -/
structure Offers (bytes : List UInt8) (c : Console) : Prop where
  flushes : c.output.FlushesNeverFail
  ends : c.input.failing = false
  rest : c.input.rest = bytes

section Reads

variable {c after : Console} {bytes raw rest : List UInt8} {request : ReadRequest}
  {given : Option Piece}

theorem gone_eq (h : c.input.rest = raw ++ after.input.rest) : gone c after = raw := by
  rw [gone, h, List.length_append, Nat.add_sub_cancel]
  exact List.take_left

/-- The console after a read that took some bytes. -/
def past (raw rest : List UInt8) (c : Console) : Console :=
  ⟨c.input.past raw rest, c.output.flush.2⟩

theorem Offers.past (h : c.Offers bytes) (raw rest : List UInt8) : (c.past raw rest).Offers rest where
  flushes := h.flushes.flush.2
  ends := h.ends
  rest := rfl

/-- **The console delivers what can be delivered.** -/
theorem Offers.read_of_delivers (h : c.Offers (raw ++ rest))
    (hd : Delivers request raw given rest) : c.read request = (.ok given, c.past raw rest) := by
  have hflush : c.output.flush = (.ok (), c.output.flush.2) := Prod.ext h.flushes.flush.1 rfl
  have hends : c.input.failing = true → Input.newline ∈ raw := by
    rw [h.ends]
    exact nofun
  cases request with
  | byte =>
      obtain ⟨b, hread, rfl⟩ := Input.readByte_of_delivers h.rest hd
      rw [read, readByte_of_flushed hflush, hread]
      rfl
  | line =>
      obtain ⟨line, hread, rfl⟩ := Input.readLine_of_delivers hends h.rest hd
      rw [read, readLine_of_flushed hflush, hread]
      cases line <;> rfl

end Reads

section Logs

variable {c : Console} {bytes raw rest left : List UInt8} {request : ReadRequest}
  {requests : List ReadRequest} {given : Option Piece} {log : List Reading}

/-- A log of reads from the bytes that are left, and what is left after them. -/
inductive Logged : List UInt8 → List Reading → List UInt8 → Prop
  | nil (bytes : List UInt8) : Logged bytes [] bytes
  | cons {request : ReadRequest} {raw rest left : List UInt8} {given : Option Piece}
      {log : List Reading} (hfirst : Delivers request raw given rest) (hlater : Logged rest log left) :
      Logged (raw ++ rest) (⟨request, raw, given⟩ :: log) left

/-- Nothing is lost, doubled or moved. -/
theorem Logged.flatMap_raw_append (h : Logged bytes log left) :
    log.flatMap Reading.raw ++ left = bytes := by
  induction h with
  | nil => rfl
  | cons _ _ ih => rw [List.flatMap_cons, List.append_assoc, ih]

/-- Each read delivers from what the reads before it have left. -/
theorem Logged.delivers {earlier later : List Reading} {r : Reading}
    (h : Logged bytes (earlier ++ r :: later) left) :
    Delivers r.request r.raw r.given (later.flatMap Reading.raw ++ left) := by
  induction earlier generalizing bytes with
  | nil =>
      cases h with
      | cons hfirst hlater =>
          rw [hlater.flatMap_raw_append]
          exact hfirst
  | cons _ _ ih =>
      cases h with
      | cons _ hlater => exact ih hlater

/-- Where a read found nothing, so do all later ones. -/
theorem Logged.given_eq_none_of_mem {earlier later : List Reading} {r r' : Reading}
    (h : Logged bytes (earlier ++ r :: later) left) (hnone : r.given = none) (hr' : r' ∈ later) :
    r'.given = none := by
  have hempty := h.delivers.given_eq_none_iff.mp hnone
  obtain ⟨between, last, rfl⟩ := List.append_of_mem hr'
  rw [show earlier ++ r :: (between ++ r' :: last) = (earlier ++ r :: between) ++ r' :: last by
    simp] at h
  apply h.delivers.given_eq_none_iff.mpr
  simp only [List.flatMap_append, List.flatMap_cons, List.append_eq_nil_iff] at hempty ⊢
  exact ⟨hempty.2.1.2.1, hempty.2.1.2.2, hempty.2.2⟩

theorem Offers.readings_cons (h : c.Offers (raw ++ rest)) (hd : Delivers request raw given rest)
    (requests : List ReadRequest) :
    c.readings (request :: requests) =
      ((c.past raw rest).readings requests).map (Except.map (⟨request, raw, given⟩ :: ·)) id := by
  have hgone : gone c (c.past raw rest) = raw := gone_eq h.rest
  rw [readings, h.read_of_delivers hd]
  simp only [hgone]

/-- All reads are logged. -/
theorem Offers.readings (h : c.Offers bytes) (requests : List ReadRequest) :
    ∃ log after, c.readings requests = (.ok log, after) ∧ log.map Reading.request = requests ∧
      Logged bytes log after.input.rest ∧
      after.input.consumed = c.input.consumed + (log.flatMap Reading.raw).length := by
  induction requests generalizing c bytes with
  | nil => exact ⟨[], c, rfl, rfl, h.rest ▸ .nil bytes, rfl⟩
  | cons request requests ih =>
      obtain ⟨raw, given, rest, rfl, hd⟩ := exists_delivers request bytes
      obtain ⟨log, after, hlog, hrequests, hlogged, hconsumed⟩ := ih (h.past raw rest)
      refine ⟨⟨request, raw, given⟩ :: log, after, ?_, ?_, .cons hd hlogged, ?_⟩
      · rw [h.readings_cons hd, hlog]
        rfl
      · rw [List.map_cons, hrequests]
      · rw [hconsumed, List.flatMap_cons, List.length_append, ← Nat.add_assoc]
        rfl

end Logs

section Lines

variable {c : Console} {bytes raw rest : List UInt8} {request : ReadRequest}
  {requests : List ReadRequest} {given : Option Piece}

/-- What the reads give. -/
def answers (requests : List ReadRequest) (c : Console) : Except IoError (List (Option Piece)) :=
  (c.readings requests).1.map (List.map Reading.given)

theorem Offers.answers_cons (h : c.Offers (raw ++ rest)) (hd : Delivers request raw given rest)
    {later : List (Option Piece)} (hlater : (c.past raw rest).answers requests = .ok later) :
    c.answers (request :: requests) = .ok (given :: later) := by
  rw [answers, h.readings_cons hd]
  unfold answers at hlater
  rcases heq : (c.past raw rest).readings requests with ⟨_ | log, after⟩
  · rw [heq] at hlater
    cases hlater
  · rw [heq] at hlater
    cases hlater
    rfl

/-- At the end of input nothing is given, however often it is asked for. -/
theorem Offers.answers_of_end (h : c.Offers []) (n : Nat) :
    c.answers (List.replicate n request) = .ok (List.replicate n none) := by
  induction n generalizing c with
  | zero => rfl
  | succ n ih =>
      have hlater := ih (h.past [] [])
      exact Offers.answers_cons h (.nothing request) hlater

/-- A text as a line with an end is delivered as that text. -/
theorem delivers_lineOf {line : List Char × LineEnd} (hnewline : '\n' ∉ line.1)
    (hreturn : line.1.getLast? ≠ some '\r') (rest : List UInt8) :
    Delivers .line (LineEnd.lineOf line) (some (.line line.1)) rest := by
  obtain ⟨text, ending⟩ := line
  have hbytes : Input.newline ∉ Utf8.encode text :=
    fun h => hnewline (Utf8.mem_of_mem_encode h (by decide))
  have htext : Utf8.decodeLossy (Utf8.encode text) = text := Utf8.decodeLossy_encode text
  cases ending with
  | newline =>
      have hend : (Utf8.encode text).getLast? ≠ some Input.carriageReturn :=
        fun h => hreturn (Utf8.getLast?_encode h (by decide))
      have hdelivers := Delivers.line rest hbytes hend
      rwa [htext] at hdelivers
  | returnNewline =>
      have hdelivers := Delivers.returnLine rest hbytes
      rwa [htext] at hdelivers

/-- A text without an end is delivered as that text if nothing follows it. -/
theorem delivers_last {line : List Char} (hne : line ≠ []) (hnewline : '\n' ∉ line) :
    Delivers .line (Utf8.encode line) (some (.line line)) [] := by
  have hbytes : Input.newline ∉ Utf8.encode line :=
    fun h => hnewline (Utf8.mem_of_mem_encode h (by decide))
  have hsome : Utf8.encode line ≠ [] := by
    intro hnil
    have htext := Utf8.decodeLossy_encode line
    rw [hnil] at htext
    exact hne htext.symm
  have hdelivers := Delivers.lastLine hbytes hsome
  rwa [Utf8.decodeLossy_encode] at hdelivers

/-- **A text in lines is read line by line.** -/
theorem Offers.answers_of_lines {lines : List (List Char × LineEnd)} {last : Option (List Char)}
    (hlines : ∀ line ∈ lines, '\n' ∉ line.1 ∧ line.1.getLast? ≠ some '\r')
    (hlast : ∀ line ∈ last, line ≠ [] ∧ '\n' ∉ line)
    (h : c.Offers (lines.flatMap LineEnd.lineOf ++ last.toList.flatMap Utf8.encode)) (more : Nat) :
    c.answers (List.replicate (lines.length + last.toList.length + more) .line) =
      .ok ((lines.map Prod.fst ++ last.toList).map (some ∘ .line) ++ List.replicate more none) := by
  induction lines generalizing c with
  | nil =>
      cases last with
      | none =>
          simp only [List.length_nil, Option.toList_none, Nat.zero_add]
          exact h.answers_of_end more
      | some line =>
          obtain ⟨hne, hnewline⟩ := hlast line rfl
          simp only [List.length_nil, Option.toList_some, List.length_singleton, Nat.zero_add,
            Nat.add_comm 1 more]
          have hbytes : c.Offers (Utf8.encode line ++ []) := by simpa using h
          exact hbytes.answers_cons (delivers_last hne hnewline)
            ((hbytes.past (Utf8.encode line) []).answers_of_end more)
  | cons line lines ih =>
      obtain ⟨hnewline, hreturn⟩ := hlines line List.mem_cons_self
      have hlater := fun l hl => hlines l (List.mem_cons_of_mem line hl)
      rw [List.flatMap_cons, List.append_assoc] at h
      simp only [List.length_cons, Nat.add_right_comm _ 1, List.replicate_succ]
      exact h.answers_cons (delivers_lineOf hnewline hreturn _) (ih hlater (h.past _ _))

end Lines

/-- **Input is delivered in order.**  Let the flushes of the output succeed and the input not fail.

* Reads of bytes and lines in any order all give an answer.  The bytes that they take, one read after
  the other, are the front of the input, and what then is left is the rest of it.  Each read takes
  one byte, or a line up to and with its newline, or what is left if there is no newline, and gives
  what stands there.  It gives nothing exactly if nothing is left, and then later reads do not either.
* Texts without newlines that do not end in a carriage return, each with a newline or with a carriage
  return and a newline as its end, and then possibly one more text without an end, are read line by
  line as these texts, and then there is nothing. -/
theorem readings_in_order (c : Console) (hflush : c.output.FlushesNeverFail)
    (hinput : c.input.failing = false) :
    (∀ requests, ∃ log after, c.readings requests = (.ok log, after) ∧
      log.map Reading.request = requests ∧
      log.flatMap Reading.raw ++ after.input.rest = c.input.rest ∧
      after.input.consumed = c.input.consumed + (log.flatMap Reading.raw).length ∧
      ∀ earlier r later, log = earlier ++ r :: later →
        Delivers r.request r.raw r.given (later.flatMap Reading.raw ++ after.input.rest) ∧
        (r.given = none ↔ r.raw ++ (later.flatMap Reading.raw ++ after.input.rest) = []) ∧
        (r.given = none → ∀ r' ∈ later, r'.given = none)) ∧
    ∀ (lines : List (List Char × LineEnd)) (last : Option (List Char)),
      (∀ line ∈ lines, '\n' ∉ line.1 ∧ line.1.getLast? ≠ some '\r') →
      (∀ line ∈ last, line ≠ [] ∧ '\n' ∉ line) →
      c.input.rest = lines.flatMap LineEnd.lineOf ++ last.toList.flatMap Utf8.encode →
      ∀ more,
        c.answers (List.replicate (lines.length + last.toList.length + more) .line) =
          .ok ((lines.map Prod.fst ++ last.toList).map (some ∘ .line) ++
            List.replicate more none) := by
  have hoffers : c.Offers c.input.rest := ⟨hflush, hinput, rfl⟩
  constructor
  · intro requests
    obtain ⟨log, after, hlog, hrequests, hlogged, hconsumed⟩ := hoffers.readings requests
    refine ⟨log, after, hlog, hrequests, hlogged.flatMap_raw_append, hconsumed, ?_⟩
    rintro earlier r later rfl
    exact ⟨hlogged.delivers, hlogged.delivers.given_eq_none_iff,
      fun hnone r' hr' => hlogged.given_eq_none_of_mem hnone hr'⟩
  · intro lines last hlines hlast hrest more
    exact (hrest ▸ hoffers).answers_of_lines hlines hlast more

/-- Both ends of a line, an empty line, and a last line that keeps its carriage return. -/
theorem readings_in_order_mixed :
    let c : Console := ⟨{ rest := Utf8.encode "12\r\n\n3.5\nlast\r".toList }, {}⟩
    c.output.FlushesNeverFail ∧ c.input.failing = false ∧
      c.answers (List.replicate 6 .line) =
        .ok (["12", "", "3.5", "last\r"].map (fun text => some (.line text.toList)) ++
          [none, none]) := by
  intro c
  have hflush : c.output.FlushesNeverFail :=
    (Output.Unlimited.neverFails ⟨rfl, rfl⟩).flushesNeverFail
  refine ⟨hflush, rfl, ?_⟩
  exact (readings_in_order c hflush rfl).2
    [("12".toList, .returnNewline), ([], .newline), ("3.5".toList, .newline)]
    (some "last\r".toList) (by decide) (by decide) (by decide) 2

end Console

end ErrorFree
