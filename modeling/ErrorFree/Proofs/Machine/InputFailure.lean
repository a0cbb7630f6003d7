import ErrorFree.Proofs.Console.Lines
import ErrorFree.Proofs.Machine.NeverFails
import ErrorFree.Proofs.Machine.Requests

/-!
# A failing input and its end

**Torn lines.**  An input that fails and one that ends give the same bytes, one by one.  By lines they
do not: when the bytes run out in the middle of a line, the end of input still gives that line, and
a failure loses it (`Input.Torn`).

**Comparison.**  So the two inputs differ in one instruction, the read of a number from a torn line,
and only in the value that it pushes (`Run.Tears`).  The runs are the same up to there.  The input is
used up then, so this happens once in a run, if at all.

**Result.**  `run_withFailing`: without a torn line the runs are the same; with one, they are the same
but for a zero in the place of the number.
-/

namespace ErrorFree

namespace Input

variable {i : Input}

/-- The input with failures after its last byte, or with an end there. -/
def withFailing (failing : Bool) (i : Input) : Input := { i with failing }

/-- The bytes run out in the middle of the next line. -/
def Torn (i : Input) : Prop := i.rest ≠ [] ∧ newline ∉ i.rest

instance (i : Input) : Decidable i.Torn := inferInstanceAs (Decidable (_ ∧ _))

/-- The bytes are whole lines. -/
def WholeLines (i : Input) : Prop := i.rest = [] ∨ i.rest.getLast? = some newline

section Lines

theorem splitLine_of_mem {bytes : List UInt8} (h : newline ∈ bytes) :
    (splitLine bytes).1.getLast? = some newline := by
  induction bytes with
  | nil => cases h
  | cons byte rest ih =>
      by_cases hbyte : byte = newline
      · simp [splitLine, hbyte]
      · have hrest : newline ∈ rest := by
          rcases List.mem_cons.mp h with heq | hrest
          · exact absurd heq.symm hbyte
          · exact hrest
        simp [splitLine, hbyte, List.getLast?_cons, ih hrest]

theorem splitLine_suffix (bytes : List UInt8) : (splitLine bytes).2 <:+ bytes := by
  induction bytes with
  | nil => exact List.suffix_rfl
  | cons byte rest ih =>
      rw [splitLine]
      split
      · exact List.suffix_cons byte rest
      · exact ih.trans (List.suffix_cons byte rest)

theorem WholeLines.not_torn (h : i.WholeLines) : ¬ i.Torn := by
  rintro ⟨hne, hmem⟩
  rcases h with hnil | hlast
  · exact hne hnil
  · exact hmem (List.mem_of_getLast? hlast)

theorem WholeLines.of_suffix {i' : Input} (h : i.WholeLines) (hsuffix : i'.rest <:+ i.rest) :
    i'.WholeLines := by
  obtain ⟨before, hrest⟩ := hsuffix
  rcases h with hnil | hlast
  · left
    rw [hnil] at hrest
    exact (List.append_eq_nil_iff.mp hrest).2
  · rw [← hrest, List.getLast?_append] at hlast
    cases hafter : i'.rest.getLast? with
    | none =>
        left
        exact List.getLast?_eq_none_iff.mp hafter
    | some byte =>
        right
        rw [hafter] at hlast
        rw [hafter]
        exact hlast

end Lines

section Reads

theorem readByte_withFailing (failing : Bool) (i : Input) :
    (i.withFailing failing).readByte = i.readByte.map id (withFailing failing) := by
  unfold readByte withFailing attempt
  cases i.rest <;> rfl

theorem readByte_rest_suffix (i : Input) : i.readByte.2.rest <:+ i.rest := by
  cases hrest : i.rest with
  | nil => simp [readByte, attempt, hrest]
  | cons byte rest => simp [readByte, attempt, hrest]

/-- What a read of a line leaves. -/
theorem readLine_snd (i : Input) :
    i.readLine.2 =
      { i.attempt with
        rest := (splitLine i.rest).2
        consumed := i.consumed + (splitLine i.rest).1.length } := by
  by_cases hline : (splitLine i.rest).1 = []
  · simp [readLine, attempt, hline]
  · by_cases hlost : i.failing ∧ (splitLine i.rest).1.getLast? ≠ some newline
    · simp [readLine, attempt, hline, hlost]
    · simp [readLine, attempt, hline, hlost]

theorem readLine_snd_withFailing (failing : Bool) (i : Input) :
    (i.withFailing failing).readLine.2 = i.readLine.2.withFailing failing := by
  rw [readLine_snd, readLine_snd]
  rfl

theorem readLine_rest_suffix (i : Input) : i.readLine.2.rest <:+ i.rest := by
  rw [readLine_snd]
  exact splitLine_suffix i.rest

/-- A line that is not torn is the same before a failure and before the end. -/
theorem readLine_fst_withFailing (failing : Bool) (h : ¬ i.Torn) :
    (i.withFailing failing).readLine.1 = i.readLine.1 := by
  by_cases hnil : i.rest = []
  · simp [readLine, withFailing, attempt, hnil, splitLine]
  · have hmem : newline ∈ i.rest := Classical.not_not.mp fun hmem => h ⟨hnil, hmem⟩
    have hlast := splitLine_of_mem hmem
    have hline : (splitLine i.rest).1 ≠ [] := by
      intro hline
      rw [hline] at hlast
      cases hlast
    simp [readLine, withFailing, attempt, hline, hlast]

/-- A torn line is lost by a failure only. -/
theorem readLine_of_torn (h : i.Torn) :
    i.readLine.1 = if i.failing then none else some i.rest := by
  obtain ⟨hne, hmem⟩ := h
  have hlast : i.rest.getLast? ≠ some newline := fun hlast => hmem (List.mem_of_getLast? hlast)
  cases hfailing : i.failing <;>
    simp [readLine, attempt, splitLine_of_notMem hmem, hne, hlast, hfailing, withoutEnd]

theorem readLine_rest_of_torn (h : i.Torn) : i.readLine.2.rest = [] := by
  rw [readLine_snd]
  simp [splitLine_of_notMem h.2]

end Reads

end Input

namespace Machine

variable (settings : RuntimeSettings) {m : Machine} {op : Opcode}

/-- The machine on an input that fails, or that ends, after its last byte. -/
def withFailing (failing : Bool) (m : Machine) : Machine :=
  { m with console := ⟨m.console.input.withFailing failing, m.console.output⟩ }

theorem taken_withFailing (failing : Bool) (op : Opcode) (m : Machine) :
    (m.withFailing failing).taken settings op = (m.taken settings op).withFailing failing := by
  cases op with
  | getByte =>
      have hread := congrArg Prod.snd (Input.readByte_withFailing failing m.console.input)
      cases hauto : settings.autoZero <;> simp [taken, hauto, withFailing, hread]
  | getNumber =>
      have hread := Input.readLine_snd_withFailing failing m.console.input
      cases hauto : settings.autoZero <;> simp [taken, hauto, withFailing, hread]
  | _ => rfl

theorem exchange_withFailing (failing : Bool) (op : Opcode) (m : Machine) :
    (m.withFailing failing).exchange settings op =
      ((m.exchange settings op).1,
        ⟨(m.exchange settings op).2.input.withFailing failing,
          (m.exchange settings op).2.output⟩) := by
  have hrequests : (m.withFailing failing).requests settings op = m.requests settings op := by
    cases op <;> rfl
  have houtput : (m.withFailing failing).console.output = m.console.output := rfl
  rw [exchange_eq, exchange_eq, hrequests, houtput]
  rcases Output.serveAll (m.requests settings op) m.console.output with ⟨_ | _, o⟩
  · rfl
  · simp only [answer, taken_withFailing]

/-- Whether the input fails or ends makes no difference but to what is pushed. -/
theorem executed_withFailing (failing : Bool) (op : Opcode) (m : Machine) :
    (m.withFailing failing).executed settings op =
      ((m.executed settings op).withFailing failing).onStack fun _ =>
        m.stack.performAll ((m.withFailing failing).accesses settings op) := by
  unfold executed
  rw [exchange_withFailing]
  cases op <;> rfl

/-- The next instruction makes a difference between a failing input and its end. -/
def Tears (op : Opcode) (m : Machine) : Prop :=
  op = .getNumber ∧ settings.autoZero = false ∧ m.console.input.Torn

theorem accesses_withFailing (failing : Bool) (h : ¬ m.Tears settings op) :
    (m.withFailing failing).accesses settings op = m.accesses settings op := by
  by_cases hread : (op = .getByte ∨ op = .getNumber) ∧ settings.autoZero = false
  · obtain ⟨hop, hauto⟩ := hread
    have hgiven : given op (m.console.input.withFailing failing) = given op m.console.input := by
      rcases hop with rfl | rfl
      · exact congrArg (fun r => byteValue r.1)
          (Input.readByte_withFailing failing m.console.input)
      · have htorn : ¬ m.console.input.Torn := fun htorn => h ⟨rfl, hauto, htorn⟩
        exact congrArg (fun line => lineValue (line.map Utf8.decodeLossy))
          (Input.readLine_fst_withFailing failing htorn)
    rcases hflush : m.console.output.flush with ⟨e | _, p⟩
    · rw [accesses_of_unflushed settings hop hauto hflush,
        accesses_of_unflushed settings (m := m.withFailing failing) hop hauto hflush]
    · rw [accesses_of_flushed settings hop hauto hflush,
        accesses_of_flushed settings (m := m.withFailing failing) hop hauto hflush]
      exact congrArg (fun value => [Access.push value]) hgiven
  · cases op with
    | getByte | getNumber =>
        have hauto : settings.autoZero = true := by simpa using hread
        simp [accesses, hauto]
    | _ => rfl

theorem accesses_of_tears (h : m.Tears settings op) (hout : m.console.NeverFails) :
    m.accesses settings op =
      [.push (if m.console.input.failing then Binary64.zero
        else Number.parseChars (Utf8.decodeLossy m.console.input.rest))] := by
  obtain ⟨rfl, hauto, htorn⟩ := h
  have hflush : m.console.output.flush = (.ok (), m.console.output.flush.2) :=
    Prod.ext hout.flush.1 rfl
  rw [accesses_of_flushed settings (Or.inr rfl) hauto hflush]
  show [Access.push (lineValue (m.console.input.readLine.1.map Utf8.decodeLossy))] = _
  rw [Input.readLine_of_torn htorn]
  cases m.console.input.failing <;> rfl

/-- An instruction takes bytes from the front of the input. -/
theorem executed_rest_suffix (op : Opcode) (m : Machine) :
    (m.executed settings op).console.input.rest <:+ m.console.input.rest := by
  show (m.exchange settings op).2.input.rest <:+ _
  rw [exchange_eq]
  rcases Output.serveAll (m.requests settings op) m.console.output with ⟨_ | _, o⟩
  · exact List.suffix_rfl
  · show (m.taken settings op).rest <:+ _
    cases op with
    | getByte =>
        cases hauto : settings.autoZero <;>
          simp [taken, hauto, Input.readByte_rest_suffix]
    | getNumber =>
        cases hauto : settings.autoZero <;>
          simp [taken, hauto, Input.readLine_rest_suffix]
    | _ => exact List.suffix_rfl

theorem executed_rest_of_tears (h : m.Tears settings op) (hout : m.console.NeverFails) :
    (m.executed settings op).console.input.rest = [] := by
  obtain ⟨rfl, hauto, htorn⟩ := h
  have hserved : Output.serveAll (m.requests settings .getNumber) m.console.output =
      (.ok (), (Output.serveAll (m.requests settings .getNumber) m.console.output).2) :=
    Prod.ext (hout _) rfl
  show (m.exchange settings .getNumber).2.input.rest = []
  rw [exchange_eq, hserved]
  show (m.taken settings .getNumber).rest = []
  simp [taken, hauto, Input.readLine_rest_of_torn htorn]

end Machine

namespace Run

variable (settings : RuntimeSettings) (program : Array UInt8) {r u : Run} {fuel : Nat}

/-- The run on an input that fails, or that ends, after its last byte. -/
def withFailing (failing : Bool) (r : Run) : Run :=
  { r with machine := r.machine.withFailing failing }

/-- The next turn makes a difference between a failing input and its end. -/
def Tears (r : Run) : Prop :=
  ∃ byte, program[r.cursor]? = some byte ∧ r.atLimit settings = false ∧
    r.machine.Tears settings (Opcode.decode byte)

section Turns

theorem observe_withFailing (length : Nat) (byte : UInt8) (failing : Bool) (r : Run) :
    (r.withFailing failing).observe length byte =
      (r.observe length byte).withFailing failing := by
  obtain ⟨machine, cursor, cycles, _ | observer⟩ := r
  · rfl
  · by_cases hcheck : cycles % Observer.checkInterval = 0
    · simp only [observe, withFailing, hcheck, if_true]
      rfl
    · simp only [observe, withFailing, hcheck, if_false]

theorem finish_withFailing (termination : Termination) (failing : Bool) (r : Run) :
    (r.withFailing failing).finish termination =
      (r.finish termination).map id (withFailing failing) := by
  rw [finish_eq, finish_eq]
  rfl

/-- Whether the input fails or ends makes no difference to an instruction but in what is pushed. -/
theorem step_withFailing (length : Nat) (byte : UInt8) (failing : Bool) (r : Run) :
    (r.withFailing failing).step settings length byte =
      (r.step settings length byte).map id fun next =>
        { next.withFailing failing with
          machine := (next.machine.withFailing failing).onStack fun _ =>
            r.machine.stack.performAll
              ((r.machine.withFailing failing).accesses settings (Opcode.decode byte)) } := by
  have hexchange := Machine.exchange_withFailing settings failing (Opcode.decode byte) r.machine
  rw [step_eq, step_eq, landing, landing, withFailing, Machine.executed_withFailing, hexchange]
  cases Opcode.decode byte <;> rfl

theorem turn_withFailing (failing : Bool) (h : ¬ r.Tears settings program) :
    (r.withFailing failing).turn settings program =
      (r.turn settings program).map id (withFailing failing) := by
  cases hbyte : program[r.cursor]? with
  | none =>
      have hbyte' : program[(r.withFailing failing).cursor]? = none := hbyte
      rw [turn_of_end hbyte, turn_of_end hbyte', finish_withFailing]
      rfl
  | some byte =>
      have hbyte' : program[(r.withFailing failing).cursor]? = some byte := hbyte
      cases hlimit : r.atLimit settings with
      | true =>
          have hlimit' : (r.withFailing failing).atLimit settings = true := hlimit
          rw [turn_of_limit hbyte hlimit, turn_of_limit hbyte' hlimit', finish_withFailing]
          rfl
      | false =>
          have hlimit' : (r.withFailing failing).atLimit settings = false := hlimit
          have hsame : ¬ r.machine.Tears settings (Opcode.decode byte) :=
            fun htears => h ⟨byte, hbyte, hlimit, htears⟩
          rw [turn_of_byte hbyte hlimit, turn_of_byte hbyte' hlimit', observe_withFailing,
            step_withFailing, observe_eq, Machine.accesses_withFailing settings failing hsame,
            step_eq]
          rfl

theorem turn_rest_of_tears (h : r.Tears settings program) (hout : r.machine.console.NeverFails) :
    (r.turn settings program).2.machine.console.input.rest = [] := by
  obtain ⟨byte, hbyte, hlimit, htears⟩ := h
  rw [turn_of_byte hbyte hlimit, observe_eq, step_eq]
  exact Machine.executed_rest_of_tears settings htears hout

/-- The turn that reads a torn line: before the end its number is pushed, after a failure zero. -/
theorem turn_of_tears (h : r.Tears settings program) (hout : r.machine.console.NeverFails)
    (hending : r.machine.console.input.failing = false) :
    ∃ next, r.turn settings program = (none, next) ∧
      next.machine.stack =
        r.machine.stack.push
          (Number.parseChars (Utf8.decodeLossy r.machine.console.input.rest)) ∧
      (r.withFailing true).turn settings program =
        (none, withFailing true
          { next with machine := next.machine.onStack fun _ =>
              r.machine.stack.push Binary64.zero }) := by
  obtain ⟨byte, hbyte, hlimit, htears⟩ := h
  have hbyte' : program[(r.withFailing true).cursor]? = some byte := hbyte
  have hlimit' : (r.withFailing true).atLimit settings = false := hlimit
  have hresult := (Machine.exchange_ok hout settings (Opcode.decode byte)).1
  have haccesses := Machine.accesses_of_tears settings htears hout
  have haccesses' : (r.machine.withFailing true).accesses settings (Opcode.decode byte) =
      [.push Binary64.zero] :=
    Machine.accesses_of_tears settings (m := r.machine.withFailing true) htears hout
  rw [hending] at haccesses
  rw [turn_of_byte hbyte hlimit, turn_of_byte hbyte' hlimit', observe_withFailing, step_withFailing,
    observe_eq, step_eq, haccesses']
  refine ⟨_, by rw [hresult]; rfl, ?_, ?_⟩
  · show r.machine.stack.performAll (r.machine.accesses settings (Opcode.decode byte)) = _
    rw [haccesses]
    rfl
  · rw [hresult]
    rfl

end Turns

section Runs

/-- As long as no line is torn the runs are the same. -/
theorem advance_withFailing (failing : Bool)
    (h : ∀ j < fuel, ∀ u, r.advance settings program j = (none, u) →
      ¬ u.Tears settings program) :
    (r.withFailing failing).advance settings program fuel =
      (r.advance settings program fuel).map id (withFailing failing) := by
  induction fuel generalizing r with
  | zero => rfl
  | succ fuel ih =>
      have hsame := turn_withFailing settings program failing (h 0 (Nat.succ_pos _) r rfl)
      rcases hturn : r.turn settings program with ⟨_ | ending, next⟩
      · rw [hturn] at hsame
        rw [advance_of_going hturn, advance_of_going hsame]
        apply ih
        intro j hj u hu
        exact h (j + 1) (by omega) u (by rw [advance_of_going hturn, hu])
      · rw [hturn] at hsame
        rw [advance_of_ended hturn, advance_of_ended hsame]
        rfl

/-- Whole lines are never torn. -/
theorem not_tears_of_wholeLines (h : r.machine.console.input.WholeLines)
    (hu : r.advance settings program fuel = (none, u)) : ¬ u.Tears settings program := by
  have hlines := advance_machine_induction settings program
    (P := fun m => m.console.input.WholeLines)
    (fun m op h => h.of_suffix (m.executed_rest_suffix settings op)) (fun _ h => h) h fuel
  rw [hu] at hlines
  rintro ⟨_, _, _, _, _, htorn⟩
  exact Input.WholeLines.not_torn hlines htorn

/-- Only the last line can be torn, so this happens once in a run. -/
theorem not_tears_before (hout : r.machine.console.NeverFails)
    (hu : r.advance settings program fuel = (none, u)) (htears : u.Tears settings program) :
    ∀ j < fuel, ∀ v, r.advance settings program j = (none, v) → ¬ v.Tears settings program := by
  intro j hj v hv hearlier
  have hkeep := advance_induction settings program (P := fun r => r.machine.console.NeverFails)
    (fun _ => turn_neverFails settings program) hout j
  rw [hv] at hkeep
  have hrest := turn_rest_of_tears settings program hearlier hkeep
  obtain ⟨more, rfl⟩ : ∃ more, fuel = j + (more + 1) := ⟨fuel - j - 1, by omega⟩
  rw [advance_add hv] at hu
  rcases hturn : v.turn settings program with ⟨_ | ending, next⟩
  · rw [hturn] at hrest
    rw [advance_of_going hturn] at hu
    exact not_tears_of_wholeLines settings program (Or.inl hrest) hu htears
  · rw [advance_of_ended hturn] at hu
    cases hu

/-- A torn line: the runs are the same up to it, and then go on with different values. -/
theorem advance_of_tears (hout : r.machine.console.NeverFails)
    (hending : r.machine.console.input.failing = false)
    (hu : r.advance settings program fuel = (none, u)) (htears : u.Tears settings program) :
    (r.withFailing true).advance settings program fuel = (none, u.withFailing true) ∧
    ∃ next, u.turn settings program = (none, next) ∧
      next.machine.stack = u.machine.stack.push
        (Number.parseChars (Utf8.decodeLossy u.machine.console.input.rest)) ∧
      ∀ more, (r.withFailing true).advance settings program (fuel + (more + 1)) =
        (advance settings program more
          { next with machine := next.machine.onStack fun _ =>
              u.machine.stack.push Binary64.zero }).map id (withFailing true) := by
  have hbefore := not_tears_before settings program hout hu htears
  have hsame : (r.withFailing true).advance settings program fuel = (none, u.withFailing true) := by
    rw [advance_withFailing settings program true hbefore, hu]
    rfl
  have hself : u = u.withFailing false := by
    have hr : r.withFailing false = r := by
      rw [← hending]
      rfl
    have hadvance := advance_withFailing settings program false hbefore
    rw [hr, hu] at hadvance
    exact congrArg Prod.snd hadvance
  have hkeep := advance_induction settings program (P := fun r => r.machine.console.NeverFails)
    (fun _ => turn_neverFails settings program) hout fuel
  rw [hu] at hkeep
  obtain ⟨next, hturn, hstack, hturn'⟩ := turn_of_tears settings program htears hkeep
    (congrArg (fun v => v.machine.console.input.failing) hself)
  have hrest := turn_rest_of_tears settings program htears hkeep
  rw [hturn] at hrest
  refine ⟨hsame, next, hturn, hstack, fun more => ?_⟩
  rw [advance_add hsame, advance_of_going hturn']
  apply advance_withFailing
  intro j _ v hv
  apply not_tears_of_wholeLines settings program _ hv
  left
  exact hrest

end Runs

end Run

namespace Machine

/-- **A failing input counts as its end, but for a torn line.**  Over an output that never fails,
compare the run on an input that fails after its last byte with the run on one that ends there.

* Whole lines are never torn.
* If no instruction reads a torn line, the two runs are the same.
* If one does, the runs are the same up to it.  It pushes the number in that line in the run whose
  input ends, and zero in the run whose input fails.  From there on this run is the one that goes on
  with zero in the place of the number on an input that ends. -/
theorem run_withFailing (settings : RuntimeSettings) (patience : Nat) (observed : Bool)
    (program : Array UInt8) (m : Machine) (hout : m.console.NeverFails) :
    (m.console.input.WholeLines → ∀ fuel u,
      (Run.start settings observed (m.withFailing false)).advance settings program fuel =
        (none, u) → ¬ u.Tears settings program) ∧
    ((∀ fuel u,
      (Run.start settings observed (m.withFailing false)).advance settings program fuel =
        (none, u) → ¬ u.Tears settings program) →
      run settings patience observed program (m.withFailing true) =
        (run settings patience observed program (m.withFailing false)).map id
          (Run.withFailing true)) ∧
    ∀ fuel u,
      (Run.start settings observed (m.withFailing false)).advance settings program fuel =
        (none, u) → u.Tears settings program →
      (Run.start settings observed (m.withFailing true)).advance settings program fuel =
        (none, u.withFailing true) ∧
      ∃ next, u.turn settings program = (none, next) ∧
        next.machine.stack = u.machine.stack.push
          (Number.parseChars (Utf8.decodeLossy u.machine.console.input.rest)) ∧
        ∀ more,
          (Run.start settings observed (m.withFailing true)).advance settings program
              (fuel + (more + 1)) =
            (Run.advance settings program more
              { next with machine := next.machine.onStack fun _ =>
                  u.machine.stack.push Binary64.zero }).map id (Run.withFailing true) := by
  have hstart : Run.start settings observed (m.withFailing true) =
      (Run.start settings observed (m.withFailing false)).withFailing true := rfl
  refine ⟨?_, ?_, ?_⟩
  · intro hlines fuel u hu
    exact Run.not_tears_of_wholeLines settings program hlines hu
  · intro hwhole
    rw [run, run, hstart]
    exact Run.advance_withFailing settings program true fun j _ u hu => hwhole j u hu
  · intro fuel u hu htears
    rw [hstart]
    exact Run.advance_of_tears settings program hout rfl hu htears

/-- A line that ends with the input is read as a number, whether the input fails then or ends. -/
theorem run_withFailing_line :
    Console.NeverFails ⟨{ rest := [49, 50, 10] }, {}⟩ ∧
    Input.WholeLines { rest := [49, 50, 10] } ∧
    (run { maxCycles := some 10 } 0 false #[79, 78]
      (create {} ⟨{ rest := [49, 50, 10], failing := true }, {}⟩ (RandomSource.ofSeed 0)
        { seconds := fun _ => 0 })).2.output.written = #[49, 50, 10] := by
  have hout : Console.NeverFails ⟨{ rest := [49, 50, 10] }, {}⟩ :=
    Output.Unlimited.neverFails ⟨rfl, rfl⟩
  have hlines : Input.WholeLines { rest := [49, 50, 10] } := Or.inr rfl
  obtain ⟨hnever, hsame, -⟩ := run_withFailing { maxCycles := some 10 } 0 false #[79, 78]
    (create {} ⟨{ rest := [49, 50, 10] }, {}⟩ (RandomSource.ofSeed 0) { seconds := fun _ => 0 }) hout
  have hfails := congrArg (fun r => r.2.output.written) (hsame (hnever hlines))
  refine ⟨hout, hlines, hfails.trans ?_⟩
  decide +kernel

/-- A line that the failure tears is lost: a program that writes the number it reads writes zero,
not the twelve that it writes when the input ends. -/
theorem run_of_torn_line :
    (run { maxCycles := some 10 } 0 false #[79, 78]
      (create {} ⟨{ rest := [49, 50], failing := true }, {}⟩ (RandomSource.ofSeed 0)
        { seconds := fun _ => 0 })).2.output.written = #[48, 10] ∧
    (run { maxCycles := some 10 } 0 false #[79, 78]
      (create {} ⟨{ rest := [49, 50], failing := false }, {}⟩ (RandomSource.ofSeed 0)
        { seconds := fun _ => 0 })).2.output.written = #[49, 50, 10] := by
  constructor
  · decide +kernel
  · decide +kernel

end Machine

end ErrorFree
