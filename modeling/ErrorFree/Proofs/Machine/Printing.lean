import ErrorFree.Proofs.Machine.Course
import ErrorFree.Proofs.Number.Characters
import ErrorFree.Proofs.Text.Utf8

/-!
# What a program prints

**Text.**  An instruction that writes prints a text: a character, or a number on a line of its own
(`Machine.text`).  `Run.printout` is what a run prints in so many turns, one instruction after the
other.

**Bytes.**  `handed_turn`, `handed_advance_of_printed`: as long as no write fails, what is handed to
the output is the encoded printout.  A flush may fail; it loses nothing.

`run_prints_text` puts this together with what the single characters are.
-/

namespace ErrorFree

namespace Machine

/-- The text that an instruction prints. -/
def text (op : Opcode) (m : Machine) : List Char :=
  match op with
  | .putChar => [Number.toChar m.stack.top]
  | .putNumber => Number.toChars m.stack.top ++ ['\n']
  | _ => []

/-- The bytes that an instruction writes are those of its text. -/
theorem bytesOf_requests (settings : RuntimeSettings) (op : Opcode) (m : Machine) :
    Output.bytesOf (m.requests settings op) = Utf8.encode (m.text op) := by
  cases op with
  | putChar => simp [requests, text, Output.bytesOf, Output.Request.bytes, Utf8.encode]
  | putNumber =>
      have hnewline : String.utf8EncodeChar '\n' = [Output.newline] := by decide
      simp [requests, text, Output.bytesOf, Output.Request.bytes, Utf8.encode, hnewline]
  | getByte | getNumber => cases hauto : settings.autoZero <;> simp [requests, hauto] <;> rfl
  | _ => rfl

end Machine

namespace Run

variable (settings : RuntimeSettings) (program : Array UInt8) {r : Run} {fuel : Nat}

/-- The text that the next turn prints. -/
def text (r : Run) : List Char :=
  (r.instruction? settings program).elim [] fun op => r.machine.text op

/-- The next turn carries out an instruction that writes. -/
def prints (r : Run) : Bool := (r.instruction? settings program).any Opcode.isWrite

/-- What a run prints in so many turns. -/
def printout (fuel : Nat) (r : Run) : List Char :=
  (r.course settings program fuel).flatMap (text settings program)

theorem bytesOf_requests (r : Run) :
    Output.bytesOf (r.requests settings program) = Utf8.encode (r.text settings program) := by
  rw [requests_eq, text]
  cases r.instruction? settings program with
  | none => rfl
  | some op => exact Machine.bytesOf_requests settings op r.machine

variable {settings program}

/-- A turn that does not write asks for a flush at most. -/
theorem requests_of_not_printing (h : r.prints settings program = false) :
    r.requests settings program = [] ∨ r.requests settings program = [.flush] := by
  rw [requests_eq]
  rw [prints] at h
  cases hop : r.instruction? settings program with
  | none => exact Or.inr rfl
  | some op =>
      have hwrite : op.isWrite = false := by simpa [hop] using h
      cases op with
      | putChar | putNumber => cases hwrite
      | getByte | getNumber => cases hauto : settings.autoZero <;> simp [Machine.requests, hauto]
      | _ => exact Or.inl rfl

/-- A turn in which no write fails hands over its text. -/
theorem handed_turn
    (h : r.prints settings program = true → (r.turn settings program).1 = none) :
    (r.turn settings program).2.output.handed =
      r.output.handed ++ Utf8.encode (r.text settings program) := by
  rw [output_turn, ← bytesOf_requests]
  rcases hserve : Output.serveAll (r.requests settings program) r.output with ⟨e | _, p⟩
  · have hquiet : r.prints settings program = false := by
      obtain ⟨last, hlast, -⟩ := turn_of_refused settings program hserve
      cases hprints : r.prints settings program with
      | false => rfl
      | true =>
          have hgoing := h hprints
          rw [hlast] at hgoing
          cases hgoing
    rcases requests_of_not_printing hquiet with hnothing | hflush
    · rw [hnothing] at hserve
      cases hserve
    · rw [hflush, Output.serveAll_singleton] at hserve
      have hkept := Output.handed_flush r.output
      rw [show r.output.flush = (.error e, p) from hserve] at hkept
      rw [hflush]
      exact hkept.trans (List.append_nil _).symm
  · have hhanded := Output.handed_serveAll (congrArg Prod.fst hserve)
    rw [hserve] at hhanded
    exact hhanded

/-- A run in which no write fails hands over its printout. -/
theorem handed_advance_of_printed
    (h : ∀ u ∈ r.course settings program fuel,
      u.prints settings program = true → (u.turn settings program).1 = none) :
    (r.advance settings program fuel).2.output.handed =
      r.output.handed ++ Utf8.encode (r.printout settings program fuel) := by
  induction fuel generalizing r with
  | zero => exact (List.append_nil _).symm
  | succ fuel ih =>
      have hfirst : (r.turn settings program).2.output.handed =
          r.output.handed ++ Utf8.encode (r.text settings program) := by
        apply handed_turn
        apply h
        rw [course]
        exact List.mem_cons_self
      rw [printout]
      rcases hturn : r.turn settings program with ⟨_ | ending, next⟩
      · rw [hturn] at hfirst
        rw [course_of_going hturn] at h
        have hrest := ih fun u hu => h u (List.mem_cons_of_mem r hu)
        rw [advance_of_going hturn, course_of_going hturn, hrest, hfirst, List.append_assoc,
          List.flatMap_cons, Utf8.encode, Utf8.encode, Utf8.encode, List.flatMap_append]
        rfl
      · rw [hturn] at hfirst
        rw [advance_of_ended hturn, course_of_ended hturn, List.flatMap_singleton]
        exact hfirst

/-- Without a line buffer the device has what was handed over. -/
theorem written_advance_of_printed (hline : r.output.lineBuffered = false)
    (h : ∀ u ∈ r.course settings program fuel,
      u.prints settings program = true → (u.turn settings program).1 = none) :
    (r.advance settings program fuel).2.output.written.toList =
      r.output.written.toList ++ Utf8.encode (r.printout settings program fuel) := by
  have hline' : (r.advance settings program fuel).2.output.lineBuffered = false :=
    (lineBuffered_advance settings program fuel r).trans hline
  have hhanded := handed_advance_of_printed h
  rw [Output.handed, Output.handed, hline, hline'] at hhanded
  simpa using hhanded

end Run

namespace Machine

/-- **Output is text.**  Let a run make so many turns, over an output on which its writes succeed; a
flush may fail.

* The bytes handed over are the encoding of the printout, which is for each instruction that writes,
  in the order in which they are carried out, the character of the value that it takes, or the text of
  that value and a newline.  Without a line buffer the device has all of them.
* These bytes are valid and decode to the printout.
* The code of the character of a finite number is the whole part of its magnitude if that is the code
  of a character; surrogates and what is above the last code are replaced.  Not-a-number and the
  infinities have the code zero. -/
theorem run_prints_text (settings : RuntimeSettings) (observed : Bool) (program : Array UInt8)
    (m : Machine) (fuel : Nat)
    (hwrites : ∀ u ∈ (Run.start settings observed m).course settings program fuel,
      u.prints settings program = true → (u.turn settings program).1 = none) :
    ((Run.start settings observed m).advance settings program fuel).2.output.handed =
      m.console.output.handed ++
        Utf8.encode ((Run.start settings observed m).printout settings program fuel) ∧
    (m.console.output.lineBuffered = false →
      ((Run.start settings observed m).advance settings program fuel).2.output.written.toList =
        m.console.output.written.toList ++
          Utf8.encode ((Run.start settings observed m).printout settings program fuel)) ∧
    Utf8.decode?
        (Utf8.encode ((Run.start settings observed m).printout settings program fuel)) =
      some ((Run.start settings observed m).printout settings program fuel) ∧
    ∀ x : Binary64,
      (x.isFinite = true →
        (⌊|x.value|⌋₊.isValidChar → (Number.toChar x).toNat = ⌊|x.value|⌋₊) ∧
        (0xD800 ≤ ⌊|x.value|⌋₊ ∧ ⌊|x.value|⌋₊ ≤ 0xDFFF ∨ 0x10FFFF < ⌊|x.value|⌋₊ →
          Number.toChar x = '\uFFFD')) ∧
      (x.isFinite = false → Number.toChar x = '\x00') := by
  refine ⟨Run.handed_advance_of_printed hwrites, ?_, Utf8.decode?_encode _, ?_⟩
  · intro hline
    exact Run.written_advance_of_printed (r := Run.start settings observed m) hline hwrites
  · intro x
    constructor
    · intro hfinite
      exact ⟨Number.toNat_toChar hfinite, Number.toChar_of_invalid hfinite⟩
    · intro hnot
      exact Number.toChar_of_not_finite hnot

/-- A program that prints the character of 255 times 255, which takes three bytes, and the number 65
on a line. -/
theorem run_prints_text_wide :
    (Run.start { maxCycles := some 9 } false
        (create {} ⟨{ rest := [] }, {}⟩ (RandomSource.ofSeed 0)
          { seconds := fun _ => 0 })).printout { maxCycles := some 9 } #[255, 255, 42, 67, 65, 78] 9 =
      ['\uFE01', '6', '5', '\n'] ∧
    ((Run.start { maxCycles := some 9 } false
        (create {} ⟨{ rest := [] }, {}⟩ (RandomSource.ofSeed 0)
          { seconds := fun _ => 0 })).advance { maxCycles := some 9 } #[255, 255, 42, 67, 65, 78]
        9).2.output.written.toList =
      [0xEF, 0xB8, 0x81, 0x36, 0x35, 0x0A] := by
  have hprintout : (Run.start { maxCycles := some 9 } false
      (create {} ⟨{ rest := [] }, {}⟩ (RandomSource.ofSeed 0)
        { seconds := fun _ => 0 })).printout { maxCycles := some 9 } #[255, 255, 42, 67, 65, 78] 9 =
      ['\uFE01', '6', '5', '\n'] := by
    decide +kernel
  obtain ⟨-, hwritten, -⟩ :=
    run_prints_text { maxCycles := some 9 } false #[255, 255, 42, 67, 65, 78]
      (create {} ⟨{ rest := [] }, {}⟩ (RandomSource.ofSeed 0) { seconds := fun _ => 0 }) 9
      (by decide +kernel)
  refine ⟨hprintout, (hwritten rfl).trans ?_⟩
  rw [hprintout]
  decide

end Machine

end ErrorFree
