import ErrorFree.Proofs.Machine.Course

/-!
# Runs that read zeros

With automatic zeros an instruction that reads pushes zero; it neither looks at the input nor flushes.
So two runs that differ in their inputs only stay that way (`Run.Beside`): every instruction does the
same in both, and leaves both inputs as they are.

* `Beside.turn`, `Beside.advance`: what one turn, and then a run, keeps of two runs side by side.
* `flushes_of_going`: as long as a run goes on it does not flush.
* `run_autoZero`: the two runs compared, and the one flush at their end.
-/

namespace ErrorFree

namespace Observer

/-- The observer with its last report so much later. -/
def later (n : Nat) (o : Observer) : Observer := { o with lastReport := o.lastReport + n }

theorem later_check (n now : Nat) (snapshot : Snapshot) (o : Observer) :
    (o.check now snapshot).later n = (o.later n).check (now + n) snapshot := by
  by_cases hdue : o.lastReport + reportInterval ≤ now
  · have hdue' : (o.later n).lastReport + reportInterval ≤ now + n := by
      simp only [later]
      omega
    rw [check, check, if_pos hdue, if_pos hdue']
    rfl
  · have hdue' : ¬ (o.later n).lastReport + reportInterval ≤ now + n := by
      simp only [later]
      omega
    rw [check, check, if_neg hdue, if_neg hdue']

end Observer

namespace Machine

variable {settings : RuntimeSettings}

/-- The machine on another input. -/
def withInput (i : Input) (m : Machine) : Machine := { m with console := ⟨i, m.console.output⟩ }

theorem accesses_withInput (hauto : settings.autoZero = true) (i : Input) (op : Opcode)
    (m : Machine) : (m.withInput i).accesses settings op = m.accesses settings op := by
  cases op with
  | getByte | getNumber => simp [accesses, hauto]
  | _ => rfl

theorem taken_of_autoZero (hauto : settings.autoZero = true) (op : Opcode) (m : Machine) :
    m.taken settings op = m.console.input := by
  cases op with
  | getByte | getNumber => simp [taken, hauto]
  | _ => rfl

/-- No instruction touches the input. -/
theorem exchange_of_autoZero (hauto : settings.autoZero = true) (op : Opcode) (m : Machine) :
    m.exchange settings op =
      ((Output.serveAll (m.requests settings op) m.console.output).1,
        ⟨m.console.input, (Output.serveAll (m.requests settings op) m.console.output).2⟩) := by
  rw [exchange_eq]
  rcases Output.serveAll (m.requests settings op) m.console.output with ⟨e | _, o⟩
  · rfl
  · rw [answer, taken_of_autoZero hauto]

theorem exchange_withInput (hauto : settings.autoZero = true) (i : Input) (op : Opcode)
    (m : Machine) :
    (m.withInput i).exchange settings op =
      ((m.exchange settings op).1, ⟨i, (m.exchange settings op).2.output⟩) := by
  have hrequests : (m.withInput i).requests settings op = m.requests settings op := by
    cases op <;> rfl
  rw [exchange_of_autoZero hauto, exchange_of_autoZero hauto, hrequests]
  rfl

theorem executed_withInput (hauto : settings.autoZero = true) (i : Input) (op : Opcode)
    (m : Machine) :
    (m.withInput i).executed settings op = (m.executed settings op).withInput i := by
  rw [executed, executed, accesses_withInput hauto, exchange_withInput hauto]
  cases op <;> rfl

theorem input_executed (hauto : settings.autoZero = true) (op : Opcode) (m : Machine) :
    (m.executed settings op).console.input = m.console.input := by
  rw [executed, exchange_of_autoZero hauto]

end Machine

namespace Run

variable {settings : RuntimeSettings} {program : Array UInt8} {i i' : Input} {r r' u : Run}
  {fuel : Nat}

section Inputs

/-- Two runs, on one input each, that differ in nothing else.  For an observer the time that was
spent on reading counts, so that its clocks are as far apart as those times. -/
structure Beside (i i' : Input) (r r' : Run) : Prop where
  input : r.machine.console.input = i
  machine : r'.machine = r.machine.withInput i'
  cursor : r'.cursor = r.cursor
  cycles : r'.cycles = r.cycles
  observer : r'.observer.map (Observer.later i.waited) = r.observer.map (Observer.later i'.waited)

theorem beside_start (settings : RuntimeSettings) (observed : Bool) (i i' : Input) (m : Machine) :
    Beside i i' (start settings observed (m.withInput i))
      (start settings observed (m.withInput i')) := by
  refine ⟨rfl, rfl, rfl, rfl, ?_⟩
  cases observed with
  | false => rfl
  | true => simp [start, stopwatch, Observer.later, Machine.withInput, Nat.add_right_comm]

theorem Beside.finish (h : Beside i i' r r') (termination : Termination) :
    (r'.finish termination).1 = (r.finish termination).1 ∧
      Beside i i' (r.finish termination).2 (r'.finish termination).2 := by
  rw [finish_eq, finish_eq, h.machine]
  exact ⟨rfl, h.input, rfl, h.cursor, h.cycles, h.observer⟩

theorem Beside.observe (h : Beside i i' r r') (length : Nat) (byte : UInt8) :
    Beside i i' (r.observe length byte) (r'.observe length byte) := by
  obtain ⟨m, cursor, cycles, observer⟩ := r
  obtain ⟨m', cursor', cycles', observer'⟩ := r'
  obtain rfl : m.console.input = i := h.input
  obtain rfl : m' = m.withInput i' := h.machine
  obtain rfl : cursor' = cursor := h.cursor
  obtain rfl : cycles' = cycles := h.cycles
  have hobserver := h.observer
  cases observer with
  | none =>
      obtain rfl : observer' = none := by simpa using hobserver
      exact ⟨rfl, rfl, rfl, rfl, rfl⟩
  | some o =>
      obtain ⟨o', rfl, ho⟩ : ∃ o', observer' = some o' ∧
          o'.later m.console.input.waited = o.later i'.waited := by
        simpa using hobserver
      by_cases hcheck : cycles' % Observer.checkInterval = 0
      · refine ⟨?_, ?_, ?_, ?_, ?_⟩ <;> simp only [Run.observe, hcheck, if_true]
        simp only [Option.map_some, Observer.later_check, ho, stopwatch, Machine.withInput,
          Nat.add_right_comm]
      · refine ⟨?_, ?_, ?_, ?_, ?_⟩ <;> simp only [Run.observe, hcheck, if_false]
        exact hobserver

theorem Beside.step (h : Beside i i' r r') (hauto : settings.autoZero = true) (length : Nat)
    (byte : UInt8) :
    (r'.step settings length byte).1 = (r.step settings length byte).1 ∧
      Beside i i' (r.step settings length byte).2 (r'.step settings length byte).2 := by
  rw [step_eq, step_eq, landing, landing, h.machine, h.cursor, h.cycles,
    Machine.exchange_withInput hauto, Machine.executed_withInput hauto]
  refine ⟨rfl, (Machine.input_executed hauto _ _).trans h.input, rfl, ?_, rfl, h.observer⟩
  cases Opcode.decode byte <;> rfl

theorem Beside.turn (h : Beside i i' r r') (hauto : settings.autoZero = true)
    (program : Array UInt8) :
    (r'.turn settings program).1 = (r.turn settings program).1 ∧
      Beside i i' (r.turn settings program).2 (r'.turn settings program).2 := by
  have hlimit' : r'.atLimit settings = r.atLimit settings := by
    rw [atLimit, atLimit, h.cycles]
  rcases turn_cases settings program r with
      ⟨hbyte, heq⟩ | ⟨byte, hbyte, hlimit, heq⟩ | ⟨byte, hbyte, hlimit, heq⟩
  · rw [heq, turn_of_end (h.cursor ▸ hbyte)]
    obtain ⟨hending, hbeside⟩ := h.finish .completed
    exact ⟨congrArg some hending, hbeside⟩
  · rw [heq, turn_of_limit (h.cursor ▸ hbyte) (hlimit'.trans hlimit)]
    obtain ⟨hending, hbeside⟩ := h.finish .cycleLimit
    exact ⟨congrArg some hending, hbeside⟩
  · rw [heq, turn_of_byte (h.cursor ▸ hbyte) (hlimit'.trans hlimit)]
    exact (h.observe program.size byte).step hauto program.size byte

/-- Two runs side by side end in the same way, or both go on. -/
theorem Beside.advance (h : Beside i i' r r') (hauto : settings.autoZero = true)
    (program : Array UInt8) (fuel : Nat) :
    (r'.advance settings program fuel).1 = (r.advance settings program fuel).1 ∧
      Beside i i' (r.advance settings program fuel).2 (r'.advance settings program fuel).2 := by
  induction fuel generalizing r r' with
  | zero => exact ⟨rfl, h⟩
  | succ fuel ih =>
      obtain ⟨hending, hbeside⟩ := h.turn hauto program
      rcases hturn : r.turn settings program with ⟨_ | ending, next⟩
      · rcases hturn' : r'.turn settings program with ⟨_ | ending', next'⟩
        · rw [hturn, hturn'] at hbeside
          rw [advance_of_going hturn, advance_of_going hturn']
          exact ih hbeside
        · rw [hturn, hturn'] at hending
          cases hending
      · rcases hturn' : r'.turn settings program with ⟨_ | ending', next'⟩
        · rw [hturn, hturn'] at hending
          cases hending
        · rw [hturn, hturn'] at hending hbeside
          rw [advance_of_ended hturn, advance_of_ended hturn']
          exact ⟨hending, hbeside⟩

theorem reports_of_beside (h : Beside i i' r r') :
    r'.observer.map Observer.reports = r.observer.map Observer.reports := by
  have hreports := congrArg (Option.map Observer.reports) h.observer
  rw [Option.map_map, Option.map_map] at hreports
  exact hreports

end Inputs

section Flushes

theorem flushing_of_autoZero (hauto : settings.autoZero = true) (r : Run) :
    r.flushing settings program = (r.instruction? settings program).isNone := by
  rw [flushing]
  cases r.instruction? settings program with
  | none => rfl
  | some op => simp [hauto]

/-- As long as a run goes on it does not flush. -/
theorem flushes_of_going (hauto : settings.autoZero = true)
    (h : r.advance settings program fuel = (none, u)) : u.output.flushes = r.output.flushes := by
  have hnone : (r.course settings program fuel).filter (flushing settings program) = [] := by
    rw [List.filter_eq_nil_iff]
    intro v hv
    obtain ⟨op, hop⟩ := instruction_of_going (going_of_mem_course h hv)
    rw [flushing_of_autoZero hauto, hop]
    exact Bool.false_ne_true
  have hflushes := flushes_advance settings program fuel r
  rw [h, hnone, List.map_nil, List.append_nil] at hflushes
  exact Array.toList_inj.mp hflushes

/-- The last turn of a run flushes once, unless a write has failed in it. -/
theorem flushes_of_last {ending : Ending} {last : Run} (hauto : settings.autoZero = true)
    (hturn : u.turn settings program = (some ending, last)) :
    (u.instruction? settings program = none ∧
      last.output.flushes = u.output.flushes.push u.output.written.size) ∨
    (∃ op e, u.instruction? settings program = some op ∧ op.isWrite = true ∧
      ending = .failed e ∧ last.output.flushes = u.output.flushes) := by
  have hflushes := flushes_turn settings program u
  rw [hturn, flushing_of_autoZero hauto] at hflushes
  cases hop : u.instruction? settings program with
  | none =>
      left
      refine ⟨rfl, Array.toList_inj.mp ?_⟩
      simpa [hop] using hflushes
  | some op =>
      right
      obtain ⟨hending, -⟩ := turn_of_instruction hop
      rw [hturn, Machine.exchange_of_autoZero hauto] at hending
      cases hwrite : op.isWrite with
      | false =>
          rw [Machine.requests_of_autoZero hauto hwrite] at hending
          cases hending
      | true =>
          cases hresult : (Output.serveAll (u.machine.requests settings op)
              u.machine.console.output).1 with
          | ok _ =>
              rw [hresult] at hending
              cases hending
          | error e =>
              rw [hresult] at hending
              refine ⟨op, e, rfl, hwrite, Option.some.inj hending, Array.toList_inj.mp ?_⟩
              simpa [hop] using hflushes

end Flushes

end Run

namespace Machine

/-- **Automatic zeros make input irrelevant.**  Over any output, whether it fails or not, a run has
the same ending on any two inputs, and the machine is the same but for the input, which is as it was
before the run; an observer has reported the same.

While the run goes on it does not flush.  If it ends, its last turn, made in a state `u`, is the one
flush of a run at its end, or an instruction whose write has failed; then there is no flush at all. -/
theorem run_autoZero (settings : RuntimeSettings) (hauto : settings.autoZero = true)
    (patience : Nat) (observed : Bool) (program : Array UInt8) (m : Machine) (i i' : Input) :
    ∃ ending r r',
      run settings patience observed program (m.withInput i) = (ending, r) ∧
      run settings patience observed program (m.withInput i') = (ending, r') ∧
      r.machine.console.input = i ∧
      r'.machine = r.machine.withInput i' ∧
      r'.cursor = r.cursor ∧ r'.cycles = r.cycles ∧
      r'.observer.map Observer.reports = r.observer.map Observer.reports ∧
      (ending = none → r.output.flushes = m.console.output.flushes) ∧
      ∀ e, ending = some e → ∃ fuel u,
        (Run.start settings observed (m.withInput i)).advance settings program fuel = (none, u) ∧
        u.turn settings program = (some e, r) ∧
        ((u.instruction? settings program = none ∧
            r.output.flushes = m.console.output.flushes.push u.output.written.size) ∨
          (∃ op failure, u.instruction? settings program = some op ∧ op.isWrite = true ∧
            e = .failed failure ∧ r.output.flushes = m.console.output.flushes)) := by
  obtain ⟨hending, hbeside⟩ :=
    (Run.beside_start settings observed i i' m).advance hauto program (fuel settings patience)
  refine ⟨_, _, (run settings patience observed program (m.withInput i')).2, rfl,
    Prod.ext hending rfl, hbeside.input, hbeside.machine, hbeside.cursor, hbeside.cycles,
    Run.reports_of_beside hbeside, ?_, ?_⟩
  · intro hgoing
    exact Run.flushes_of_going (r := Run.start settings observed (m.withInput i)) hauto
      (Prod.ext hgoing rfl)
  · intro e he
    obtain ⟨j, u, hu, hturn, -⟩ := Run.advance_eq_some
      (r := Run.start settings observed (m.withInput i)) (Prod.ext he rfl)
    refine ⟨j, u, hu, hturn, ?_⟩
    have hbefore : u.output.flushes = m.console.output.flushes := Run.flushes_of_going hauto hu
    rw [← hbefore]
    exact Run.flushes_of_last hauto hturn

/-- A program that reads a byte and a line and writes both as numbers: it writes zeros, whatever its
input is, and leaves that input alone. -/
theorem run_autoZero_numbers :
    ∃ r r',
      run { autoZero := true, maxCycles := some 9 } 0 true #[68, 78, 79, 78]
          (withInput { rest := [49, 50, 10] }
            (create {} ⟨{ rest := [] }, {}⟩ (RandomSource.ofSeed 0) { seconds := fun _ => 0 })) =
        (some (.ended .completed), r) ∧
      run { autoZero := true, maxCycles := some 9 } 0 true #[68, 78, 79, 78]
          (withInput { rest := [], failing := true }
            (create {} ⟨{ rest := [] }, {}⟩ (RandomSource.ofSeed 0) { seconds := fun _ => 0 })) =
        (some (.ended .completed), r') ∧
      r.machine.console.input.rest = [49, 50, 10] ∧
      r.output.written = #[48, 10, 48, 10] ∧ r'.output.written = #[48, 10, 48, 10] ∧
      r.output.flushes = #[4] ∧ r'.output.flushes = #[4] := by
  obtain ⟨ending, r, r', hr, hr', hinput, hmachine, -⟩ :=
    run_autoZero { autoZero := true, maxCycles := some 9 } rfl 0 true #[68, 78, 79, 78]
      (create {} ⟨{ rest := [] }, {}⟩ (RandomSource.ofSeed 0) { seconds := fun _ => 0 })
      { rest := [49, 50, 10] } { rest := [], failing := true }
  have hending : ending = some (.ended .completed) :=
    (congrArg Prod.fst hr).symm.trans (by decide +kernel)
  have hwritten : r.output.written = #[48, 10, 48, 10] :=
    (congrArg (fun last => last.2.output.written) hr).symm.trans (by decide +kernel)
  have hflushes : r.output.flushes = #[4] :=
    (congrArg (fun last => last.2.output.flushes) hr).symm.trans (by decide +kernel)
  have hout : r'.output = r.output := by
    rw [Run.output, hmachine]
    rfl
  rw [hending] at hr hr'
  exact ⟨r, r', hr, hr', by rw [hinput], hwritten, by rw [hout, hwritten], hflushes,
    by rw [hout, hflushes]⟩

end Machine

end ErrorFree
