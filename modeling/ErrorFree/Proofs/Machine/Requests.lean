import ErrorFree.Proofs.Console.Delivery
import ErrorFree.Proofs.Machine.Turn

/-!
# What a run asks of its output

**Requests.**  An instruction writes, or flushes before it reads, or asks nothing
(`Machine.requests`); a run that ends flushes (`Run.requests`).  `Run.conversation` is what a whole
run asks.

**Another output.**  `withOutput` puts another output in the place of the one there is.  What a
program does depends on its output only through the failures of that output.  So over an output that
serves the whole conversation the run is the same (`advance_withOutput`), and over one that does not
it is the same up to the turn whose requests are refused (`advance_of_refused`).
-/

namespace ErrorFree

namespace Output

theorem andThen_eq_ok {r : Except IoError Unit × Output}
    {next : Output → Except IoError Unit × Output} {p : Output}
    (h : andThen r next = (.ok (), p)) : ∃ o, r = (.ok (), o) ∧ next o = (.ok (), p) := by
  obtain ⟨_ | _, o⟩ := r
  · cases h
  · exact ⟨o, rfl, h⟩

theorem andThen_eq_error {r : Except IoError Unit × Output}
    {next : Output → Except IoError Unit × Output} {e : IoError} {p : Output}
    (h : andThen r next = (.error e, p)) :
    r = (.error e, p) ∨ ∃ o, r = (.ok (), o) ∧ next o = (.error e, p) := by
  obtain ⟨_ | _, o⟩ := r
  · left
    exact h
  · right
    exact ⟨o, rfl, h⟩

theorem serveAll_singleton (request : Request) (o : Output) :
    serveAll [request] o = o.serve request := by
  rw [serveAll]
  rcases o.serve request with ⟨_ | _, _⟩ <;> rfl

end Output

namespace Machine

variable (settings : RuntimeSettings) {m : Machine} {op : Opcode} {o p q : Output} {e : IoError}

/-- The machine with another output. -/
def withOutput (o : Output) (m : Machine) : Machine := { m with console := ⟨m.console.input, o⟩ }

/-- What an instruction asks of the output. -/
def requests (op : Opcode) (m : Machine) : List Output.Request :=
  match op with
  | .putChar => [.write (String.utf8EncodeChar (Number.toChar m.stack.top))]
  | .putNumber => [.write (Utf8.encode (Number.toChars m.stack.top)), .write [Output.newline]]
  | .getByte | .getNumber => if settings.autoZero then [] else [.flush]
  | _ => []

/-- The input after an instruction whose requests were served. -/
def taken (op : Opcode) (m : Machine) : Input :=
  match op with
  | .getByte => if settings.autoZero then m.console.input else m.console.input.readByte.2
  | .getNumber => if settings.autoZero then m.console.input else m.console.input.readLine.2
  | _ => m.console.input

/-- What the console gives for an instruction whose requests had the given result. -/
def answer (op : Opcode) (m : Machine) :
    Except IoError Unit × Output → Except IoError Unit × Console
  | (.ok _, o) => (.ok (), ⟨m.taken settings op, o⟩)
  | (.error e, o) => (.error e, ⟨m.console.input, o⟩)

theorem requests_of_read (hop : op = .getByte ∨ op = .getNumber)
    (hauto : settings.autoZero = false) (m : Machine) : m.requests settings op = [.flush] := by
  rcases hop with rfl | rfl <;> simp [requests, hauto]

/-- An instruction deals with the output through its requests only. -/
theorem exchange_eq (op : Opcode) (m : Machine) :
    m.exchange settings op =
      m.answer settings op (Output.serveAll (m.requests settings op) m.console.output) := by
  cases op with
  | putChar =>
      rw [requests, Output.serveAll_singleton]
      show m.console.writeBytes _ = m.answer settings _ (m.console.output.write _)
      unfold Console.writeBytes
      rcases heq : m.console.output.write _ with ⟨_ | _, _⟩ <;> simp [heq, answer, taken]
  | putNumber =>
      show m.console.writeLine _ = m.answer settings _
        (Output.andThen (m.console.output.write _) fun o => Output.serveAll [.write _] o)
      simp only [Console.writeLine, Console.writeBytes, Output.serveAll_singleton, Output.serve]
      rcases m.console.output.write _ with ⟨_ | _, first⟩
      · simp [Output.andThen, answer]
      · rcases heq : first.write [Output.newline] with ⟨_ | _, _⟩ <;>
          simp [heq, Output.andThen, answer, taken]
  | getByte =>
      cases hauto : settings.autoZero with
      | true => simp [exchange, requests, Output.serveAll, answer, taken, hauto]
      | false =>
          rw [requests_of_read settings (by simp) hauto, Output.serveAll_singleton, Output.serve]
          rcases hflush : m.console.output.flush with ⟨_ | _, _⟩
          · simp [exchange, hauto, Console.readByte_of_unflushed hflush, answer, Except.map]
          · simp [exchange, hauto, Console.readByte_of_flushed hflush, answer, taken, Except.map]
  | getNumber =>
      cases hauto : settings.autoZero with
      | true => simp [exchange, requests, Output.serveAll, answer, taken, hauto]
      | false =>
          rw [requests_of_read settings (by simp) hauto, Output.serveAll_singleton, Output.serve]
          rcases hflush : m.console.output.flush with ⟨_ | _, _⟩
          · simp [exchange, hauto, Console.readLine_of_unflushed hflush, answer, Except.map]
          · simp [exchange, hauto, Console.readLine_of_flushed hflush, answer, taken, Except.map]
  | _ => rfl

/-- What a read instruction pushes once the output is flushed. -/
def given (op : Opcode) (i : Input) : Binary64 :=
  match op with
  | .getByte => byteValue i.readByte.1
  | _ => lineValue (i.readLine.1.map Utf8.decodeLossy)

theorem accesses_of_flushed (hop : op = .getByte ∨ op = .getNumber)
    (hauto : settings.autoZero = false) (h : m.console.output.flush = (.ok (), p)) :
    m.accesses settings op = [.push (given op m.console.input)] := by
  rcases hop with rfl | rfl
  · simp [accesses, hauto, Console.readByte_of_flushed h, received, given]
  · simp [accesses, hauto, Console.readLine_of_flushed h, received, given]

theorem accesses_of_unflushed (hop : op = .getByte ∨ op = .getNumber)
    (hauto : settings.autoZero = false) (h : m.console.output.flush = (.error e, p)) :
    m.accesses settings op = [] := by
  rcases hop with rfl | rfl
  · simp [accesses, hauto, Console.readByte_of_unflushed h, received]
  · simp [accesses, hauto, Console.readLine_of_unflushed h, received]

@[simp] theorem requests_withOutput (op : Opcode) (o : Output) (m : Machine) :
    (m.withOutput o).requests settings op = m.requests settings op := by
  cases op <;> rfl

@[simp] theorem taken_withOutput (op : Opcode) (o : Output) (m : Machine) :
    (m.withOutput o).taken settings op = m.taken settings op := by
  cases op <;> rfl

/-- Two outputs that serve an instruction make it do the same to the stack. -/
theorem accesses_withOutput
    (h : Output.serveAll (m.requests settings op) m.console.output = (.ok (), q))
    (h' : Output.serveAll (m.requests settings op) o = (.ok (), p)) :
    (m.withOutput o).accesses settings op = m.accesses settings op := by
  by_cases hread : (op = .getByte ∨ op = .getNumber) ∧ settings.autoZero = false
  · obtain ⟨hop, hauto⟩ := hread
    rw [requests_of_read settings hop hauto, Output.serveAll_singleton] at h h'
    rw [accesses_of_flushed settings hop hauto h,
      accesses_of_flushed settings (m := m.withOutput o) hop hauto h']
    rfl
  · cases op with
    | getByte | getNumber =>
        have hauto : settings.autoZero = true := by simpa using hread
        simp [accesses, hauto]
    | _ => rfl

/-- Two outputs that serve an instruction make it do the same but to the output. -/
theorem executed_withOutput
    (h : Output.serveAll (m.requests settings op) m.console.output = (.ok (), q))
    (h' : Output.serveAll (m.requests settings op) o = (.ok (), p)) :
    (m.withOutput o).executed settings op = (m.executed settings op).withOutput p := by
  have hstack := accesses_withOutput settings h h'
  have hconsole : ((m.withOutput o).exchange settings op).2 = ⟨m.taken settings op, p⟩ := by
    rw [exchange_eq, requests_withOutput]
    show ((m.withOutput o).answer settings op (Output.serveAll (m.requests settings op) o)).2 = _
    rw [h', answer, taken_withOutput]
  have hconsole' : (m.exchange settings op).2 = ⟨m.taken settings op, q⟩ := by
    rw [exchange_eq, h, answer]
  unfold executed
  rw [hstack, hconsole, hconsole']
  cases op <;> rfl

/-- An instruction that reads and whose flush fails changes nothing but the output. -/
theorem executed_of_unflushed (hop : op = .getByte ∨ op = .getNumber)
    (hauto : settings.autoZero = false) (h : m.console.output.flush = (.error e, p)) :
    m.executed settings op = m.withOutput p := by
  have hconsole : (m.exchange settings op).2 = ⟨m.console.input, p⟩ := by
    rw [exchange_eq, requests_of_read settings hop hauto, Output.serveAll_singleton, Output.serve,
      h, answer]
  unfold executed
  rw [hconsole, accesses_of_unflushed settings hop hauto h]
  rcases hop with rfl | rfl <;> rfl

end Machine

namespace Run

variable (settings : RuntimeSettings) (program : Array UInt8) {r : Run} {o p q : Output}
  {e : IoError}

section Turns

/-- The run with another output. -/
def withOutput (o : Output) (r : Run) : Run := { r with machine := r.machine.withOutput o }

/-- The output of a run. -/
def output (r : Run) : Output := r.machine.console.output

/-- What a turn asks of the output. -/
def requests (r : Run) : List Output.Request :=
  match program[r.cursor]? with
  | none => [.flush]
  | some byte =>
      if r.atLimit settings then [.flush]
      else r.machine.requests settings (Opcode.decode byte)

theorem withOutput_output (r : Run) : r.withOutput r.output = r := rfl

@[simp] theorem output_withOutput (o : Output) (r : Run) : (r.withOutput o).output = o := rfl

theorem requests_withOutput (o : Output) (r : Run) :
    (r.withOutput o).requests settings program = r.requests settings program := by
  simp only [requests, withOutput, Machine.requests_withOutput]
  rfl

theorem observe_withOutput (length : Nat) (byte : UInt8) (o : Output) (r : Run) :
    (r.withOutput o).observe length byte = (r.observe length byte).withOutput o := by
  obtain ⟨machine, cursor, cycles, _ | observer⟩ := r
  · rfl
  · by_cases hcheck : cycles % Observer.checkInterval = 0
    · simp only [observe, withOutput, hcheck, if_true]
      rfl
    · simp only [observe, withOutput, hcheck, if_false]

theorem finish_withOutput (termination : Termination) (h : r.output.flush = (.ok (), q))
    (h' : o.flush = (.ok (), p)) :
    (r.withOutput o).finish termination = (r.finish termination).map id (withOutput p) := by
  have hresult : r.machine.console.flush.1 = .ok () := congrArg Prod.fst h
  have hconsole : (r.withOutput o).machine.console.flush =
      (.ok (), ⟨r.machine.console.input, p⟩) := by
    show (o.flush.1, (⟨r.machine.console.input, o.flush.2⟩ : Console)) = _
    rw [h']
  rw [finish_eq, finish_eq, hresult, Machine.flushed, hconsole]
  rfl

theorem step_withOutput (length : Nat) (byte : UInt8)
    (h : Output.serveAll (r.machine.requests settings (Opcode.decode byte)) r.output = (.ok (), q))
    (h' : Output.serveAll (r.machine.requests settings (Opcode.decode byte)) o = (.ok (), p)) :
    (r.withOutput o).step settings length byte =
      (r.step settings length byte).map id (withOutput p) := by
  have hresult : (r.machine.exchange settings (Opcode.decode byte)).1 = .ok () := by
    rw [Machine.exchange_eq]
    exact congrArg (fun s => (r.machine.answer settings (Opcode.decode byte) s).1) h
  have hresult' : ((r.withOutput o).machine.exchange settings (Opcode.decode byte)).1 = .ok () := by
    rw [Machine.exchange_eq, withOutput, Machine.requests_withOutput]
    exact congrArg (fun s => ((r.machine.withOutput o).answer settings (Opcode.decode byte) s).1) h'
  rw [step_eq, step_eq, landing, landing, hresult, hresult']
  have hmachine := Machine.executed_withOutput settings h h'
  simp only [Prod.map, withOutput, hmachine]
  cases Opcode.decode byte <;> rfl

/-- Two outputs that serve a turn make it do the same but to the output. -/
theorem turn_withOutput (h : Output.serveAll (r.requests settings program) r.output = (.ok (), q))
    (h' : Output.serveAll (r.requests settings program) o = (.ok (), p)) :
    (r.withOutput o).turn settings program = (r.turn settings program).map id (withOutput p) := by
  unfold requests at h h'
  cases hbyte : program[r.cursor]? with
  | none =>
      have hbyte' : program[(r.withOutput o).cursor]? = none := hbyte
      simp only [hbyte, Output.serveAll_singleton] at h h'
      rw [turn_of_end hbyte, turn_of_end hbyte', finish_withOutput .completed h h']
      rfl
  | some byte =>
      have hbyte' : program[(r.withOutput o).cursor]? = some byte := hbyte
      simp only [hbyte] at h h'
      cases hlimit : r.atLimit settings with
      | true =>
          have hlimit' : (r.withOutput o).atLimit settings = true := hlimit
          simp only [hlimit, if_true, Output.serveAll_singleton] at h h'
          rw [turn_of_limit hbyte hlimit, turn_of_limit hbyte' hlimit',
            finish_withOutput .cycleLimit h h']
          rfl
      | false =>
          have hlimit' : (r.withOutput o).atLimit settings = false := hlimit
          simp only [hlimit, Bool.false_eq_true, if_false] at h h'
          rw [turn_of_byte hbyte hlimit, turn_of_byte hbyte' hlimit', observe_withOutput]
          apply step_withOutput
          · rw [observe_eq]
            exact h
          · rw [observe_eq]
            exact h'

theorem turn_output (h : Output.serveAll (r.requests settings program) r.output = (.ok (), q)) :
    (r.turn settings program).2.output = q := by
  have hsame := turn_withOutput settings program h h
  rw [withOutput_output] at hsame
  rw [hsame]
  rfl

/-- A turn whose requests are refused ends the run with that failure. -/
theorem turn_of_refused
    (h : Output.serveAll (r.requests settings program) r.output = (.error e, p)) :
    ∃ last, r.turn settings program = (some (.failed e), last) ∧ last.output = p := by
  have hfinish : ∀ termination, r.output.flush = (.error e, p) →
      ∃ last, r.finish termination = (.failed e, last) ∧ last.output = p := by
    intro termination hflush
    have hconsole : r.machine.console.flush = (.error e, ⟨r.machine.console.input, p⟩) := by
      show (r.output.flush.1, (⟨r.machine.console.input, r.output.flush.2⟩ : Console)) = _
      rw [hflush]
    rw [finish_eq, Machine.flushed, hconsole]
    exact ⟨_, rfl, rfl⟩
  unfold requests at h
  cases hbyte : program[r.cursor]? with
  | none =>
      simp only [hbyte, Output.serveAll_singleton] at h
      obtain ⟨last, hlast, hout⟩ := hfinish .completed h
      exact ⟨last, by rw [turn_of_end hbyte, hlast]; rfl, hout⟩
  | some byte =>
      simp only [hbyte] at h
      cases hlimit : r.atLimit settings with
      | true =>
          simp only [hlimit, if_true, Output.serveAll_singleton] at h
          obtain ⟨last, hlast, hout⟩ := hfinish .cycleLimit h
          exact ⟨last, by rw [turn_of_limit hbyte hlimit, hlast]; rfl, hout⟩
      | false =>
          simp only [hlimit, Bool.false_eq_true, if_false] at h
          have hexchange : r.machine.exchange settings (Opcode.decode byte) =
              (.error e, ⟨r.machine.console.input, p⟩) := by
            rw [Machine.exchange_eq]
            exact congrArg (r.machine.answer settings (Opcode.decode byte)) h
          rw [turn_of_byte hbyte hlimit, observe_eq, step_eq]
          refine ⟨_, by rw [hexchange]; rfl, ?_⟩
          show (r.machine.exchange settings (Opcode.decode byte)).2.output = p
          rw [hexchange]

end Turns

section Conversations

/-- What a run asks of its output in so many turns. -/
def conversation : Nat → Run → List Output.Request
  | 0, _ => []
  | fuel + 1, r =>
      r.requests settings program ++
        match r.turn settings program with
        | (some _, _) => []
        | (none, next) => conversation fuel next

variable {fuel : Nat}

/-- Over another output that serves the conversation the run is the same. -/
theorem advance_withOutput
    (h : Output.serveAll (r.conversation settings program fuel) r.output = (.ok (), q))
    (h' : Output.serveAll (r.conversation settings program fuel) o = (.ok (), p)) :
    (r.withOutput o).advance settings program fuel =
      (r.advance settings program fuel).map id (withOutput p) := by
  induction fuel generalizing r o with
  | zero =>
      obtain ⟨_, rfl⟩ := Prod.mk.inj h'
      rfl
  | succ fuel ih =>
      rw [conversation, Output.serveAll_append] at h h'
      obtain ⟨q₁, hturns, hrest⟩ := Output.andThen_eq_ok h
      obtain ⟨o₁, hturns', hrest'⟩ := Output.andThen_eq_ok h'
      have hover := turn_withOutput settings program hturns hturns'
      have hout := turn_output settings program hturns
      rcases hturn : r.turn settings program with ⟨_ | ending, next⟩
      · rw [hturn] at hrest hrest' hover hout
        obtain rfl : next.output = q₁ := hout
        rw [advance_of_going hturn, advance_of_going hover]
        exact ih hrest hrest'
      · rw [hturn] at hrest' hover
        obtain ⟨_, rfl⟩ := Prod.mk.inj hrest'
        rw [advance_of_ended hturn, advance_of_ended hover]
        rfl

theorem advance_output
    (h : Output.serveAll (r.conversation settings program fuel) r.output = (.ok (), q)) :
    (r.advance settings program fuel).2.output = q := by
  have hsame := advance_withOutput settings program h h
  rw [withOutput_output] at hsame
  rw [hsame]
  rfl

/-- Over an output that refuses a part of the conversation the run is the same up to the turn in
which that happens. -/
theorem advance_of_refused
    (h : Output.serveAll (r.conversation settings program fuel) r.output = (.ok (), q))
    (h' : Output.serveAll (r.conversation settings program fuel) o = (.error e, p)) :
    ∃ j u o₁, j < fuel ∧ r.advance settings program j = (none, u) ∧
      Output.serveAll (r.conversation settings program j) r.output = (.ok (), u.output) ∧
      Output.serveAll (r.conversation settings program j) o = (.ok (), o₁) ∧
      Output.serveAll (u.requests settings program) o₁ = (.error e, p) ∧
      (r.withOutput o).advance settings program fuel = (u.withOutput o₁).turn settings program := by
  induction fuel generalizing r o with
  | zero => cases h'
  | succ fuel ih =>
      rw [conversation, Output.serveAll_append] at h h'
      obtain ⟨q₁, hturns, hrest⟩ := Output.andThen_eq_ok h
      rcases Output.andThen_eq_error h' with hrefused | ⟨o₁, hturns', hrest'⟩
      · refine ⟨0, r, o, Nat.succ_pos _, rfl, rfl, rfl, hrefused, ?_⟩
        obtain ⟨last, hlast, _⟩ :=
          turn_of_refused settings program (r := r.withOutput o) (by rwa [requests_withOutput])
        rw [hlast, advance_of_ended hlast]
      · have hover := turn_withOutput settings program hturns hturns'
        have hout := turn_output settings program hturns
        rcases hturn : r.turn settings program with ⟨_ | ending, next⟩
        · rw [hturn] at hrest hrest' hover hout
          obtain rfl : next.output = q₁ := hout
          obtain ⟨j, u, o₂, hj, hadvance, hconv, hconv', hrefused, hlast⟩ := ih hrest hrest'
          have hsplit : r.conversation settings program (j + 1) =
              r.requests settings program ++ next.conversation settings program j := by
            rw [conversation, hturn]
          refine ⟨j + 1, u, o₂, by omega, ?_, ?_, ?_, hrefused, ?_⟩
          · rw [advance_of_going hturn, hadvance]
          · rw [hsplit, Output.serveAll_append, hturns]
            exact hconv
          · rw [hsplit, Output.serveAll_append, hturns']
            exact hconv'
          · rw [advance_of_going hover]
            exact hlast
        · rw [hturn] at hrest'
          cases hrest'

end Conversations

end Run

end ErrorFree
