import ErrorFree.Proofs.Console.Requests
import ErrorFree.Proofs.Machine.Turn

/-!
# A run never fails

**Storage.**  `Machine.Sized`: the stack and the heap have the capacities of the settings and
satisfy their invariants.  An instruction keeps this, and so does a whole run.

**Soundness of a state.**  `Run.Sound` says what this means for a state of a run: the lengths are
within the capacities, and every access that the instruction at the cursor makes to the stack passes
its checks, also in the middle of the instruction.

**Result.**  `run_neverFails`: over an output that never fails every state of a run is sound, a run
that ends does so without a failure, and with a cycle limit it ends, after no more cycles than that.
-/

namespace ErrorFree

namespace Machine

variable {settings : RuntimeSettings} {m : Machine}

section Storage

/-- Stack and heap are as the settings have them, and satisfy their invariants. -/
structure Sized (settings : RuntimeSettings) (m : Machine) : Prop where
  stack : m.stack.Valid
  stackCapacity : m.stack.capacity = settings.stackCapacity
  heap : m.heap.Valid
  heapCapacity : m.heap.capacity = settings.heapCapacity

theorem sized_reset (settings : RuntimeSettings) (m : Machine) :
    Sized settings (m.reset settings) where
  stack := Stack.valid_empty _
  stackCapacity := rfl
  heap := Heap.valid_empty _
  heapCapacity := rfl

theorem Sized.executed (h : Sized settings m) (op : Opcode) :
    Sized settings (m.executed settings op) where
  stack := Stack.valid_performAll h.stack _
  stackCapacity := (Stack.capacity_performAll _ _).trans h.stackCapacity
  heap := Heap.valid_writeAll h.heap _
  heapCapacity := (Heap.capacity_writeAll _ _).trans h.heapCapacity

theorem Sized.flushed (h : Sized settings m) : Sized settings m.flushed :=
  ⟨h.stack, h.stackCapacity, h.heap, h.heapCapacity⟩

end Storage

section Console

/-- Over an output that never fails no instruction fails. -/
theorem exchange_ok (h : m.console.NeverFails) (settings : RuntimeSettings) (op : Opcode) :
    (m.exchange settings op).1 = .ok () ∧ (m.exchange settings op).2.NeverFails := by
  cases op with
  | putChar => exact h.writeBytes _
  | putNumber => exact h.writeLine _
  | getByte =>
      simp only [exchange]
      split
      · exact ⟨rfl, h⟩
      · obtain ⟨⟨byte, hbyte⟩, hafter⟩ := h.readByte
        exact ⟨by simp [hbyte, Except.map], hafter⟩
  | getNumber =>
      simp only [exchange]
      split
      · exact ⟨rfl, h⟩
      · obtain ⟨⟨line, hline⟩, hafter⟩ := h.readLine
        exact ⟨by simp [hline, Except.map], hafter⟩
  | _ => exact ⟨rfl, h⟩

end Console

end Machine

namespace Run

variable (settings : RuntimeSettings) (program : Array UInt8) {r : Run}

section Endings

theorem turn_neverFails (h : r.machine.console.NeverFails) :
    (r.turn settings program).2.machine.console.NeverFails := by
  rcases turn_machine settings program r with heq | ⟨byte, _, heq⟩
  · rw [heq]
    exact h.flush.2
  · rw [heq]
    exact (Machine.exchange_ok h settings _).2

/-- Over an output that never fails no turn ends a run with a failure. -/
theorem turn_ending (h : r.machine.console.NeverFails) {ending : Ending}
    (hend : (r.turn settings program).1 = some ending) : ∃ t, ending = .ended t := by
  have hflush := h.flush.1
  rcases turn_cases settings program r with ⟨_, heq⟩ | ⟨_, _, _, heq⟩ | ⟨byte, _, _, heq⟩
  · rw [heq, finish_eq, hflush] at hend
    exact ⟨.completed, (Option.some.inj hend).symm⟩
  · rw [heq, finish_eq, hflush] at hend
    exact ⟨.cycleLimit, (Option.some.inj hend).symm⟩
  · rw [heq, observe_eq, step_eq] at hend
    rw [(Machine.exchange_ok h settings _).1] at hend
    cases hend

theorem advance_ending {fuel : Nat} (h : r.machine.console.NeverFails) {ending : Ending}
    (hend : (r.advance settings program fuel).1 = some ending) : ∃ t, ending = .ended t := by
  induction fuel generalizing r with
  | zero => cases hend
  | succ fuel ih =>
      have hnext := turn_neverFails settings program h
      rcases hturn : r.turn settings program with ⟨_ | last, after⟩
      · rw [hturn] at hnext
        rw [advance_of_going hturn] at hend
        exact ih hnext hend
      · rw [advance_of_ended hturn] at hend
        obtain rfl := Option.some.inj hend
        exact turn_ending settings program h (by rw [hturn])

end Endings

section Soundness

/-- The storage of a state is sound: lengths are within the capacities, and the accesses of the
instruction at the cursor pass their checks, one after the other. -/
structure Sound (r : Run) : Prop where
  stack : r.machine.stack.Valid
  stack_capacity : r.machine.stack.capacity = settings.stackCapacity
  stack_length : r.machine.stack.length ≤ settings.stackCapacity
  heap_capacity : r.machine.heap.capacity = settings.heapCapacity
  heap_length : r.machine.heap.length ≤ settings.heapCapacity
  /-- In the middle of an instruction, after some of its accesses. -/
  midway : ∀ byte, program[r.cursor]? = some byte → ∀ done rest,
    r.machine.accesses settings (Opcode.decode byte) = done ++ rest →
      ∃ s, r.machine.stack.performAll? done = some s ∧ s.Valid ∧
        s.length ≤ settings.stackCapacity
  /-- After all of its accesses. -/
  after : ∀ byte, program[r.cursor]? = some byte →
    r.machine.stack.performAll? (r.machine.accesses settings (Opcode.decode byte)) =
      some (r.machine.execute settings program.size r.cursor (Opcode.decode byte)).2.stack

theorem sound_of_sized (h : Machine.Sized settings r.machine) : r.Sound settings program where
  stack := h.stack
  stack_capacity := h.stackCapacity
  stack_length := h.stackCapacity ▸ h.stack.length_le
  heap_capacity := h.heapCapacity
  heap_length := h.heapCapacity ▸ h.heap.size_le
  midway := by
    intro byte _ done rest _
    have hvalid := Stack.valid_performAll h.stack done
    refine ⟨_, Stack.performAll?_eq_some h.stack done, hvalid, ?_⟩
    rw [← h.stackCapacity, ← Stack.capacity_performAll r.machine.stack done]
    exact hvalid.length_le
  after := by
    intro byte _
    rw [Stack.performAll?_eq_some h.stack, Machine.execute_eq]
    rfl

theorem sound_advance (observed : Bool) (m : Machine) (fuel : Nat) :
    ((start settings observed m).advance settings program fuel).2.Sound settings program := by
  apply sound_of_sized
  exact advance_machine_induction settings program (P := Machine.Sized settings)
    (fun _ op h => h.executed op) (fun _ h => h.flushed) (Machine.sized_reset settings m) fuel

end Soundness

end Run

namespace Machine

/-- **A run never fails.**  Whatever the program, the capacities, the input, the random values and
the clocks are: over an output that never fails, every state that a run comes through is sound, a
run that ends does so without a failure, and a run with a cycle limit ends within it. -/
theorem run_neverFails (settings : RuntimeSettings) (observed : Bool) (program : Array UInt8)
    (m : Machine) (hout : m.console.NeverFails) :
    (∀ fuel,
      ((Run.start settings observed m).advance settings program fuel).2.Sound settings program) ∧
    (∀ fuel ending r,
      (Run.start settings observed m).advance settings program fuel = (some ending, r) →
        ∃ termination, ending = .ended termination) ∧
    (∀ patience limit, settings.maxCycles = some limit →
      ∃ termination r,
        run settings patience observed program m = (some (.ended termination), r) ∧
          r.cycles ≤ limit) := by
  have hends : ∀ fuel ending r,
      (Run.start settings observed m).advance settings program fuel = (some ending, r) →
        ∃ termination, ending = .ended termination := by
    intro fuel ending r heq
    exact Run.advance_ending settings program hout (by rw [heq])
  refine ⟨Run.sound_advance settings program observed m, hends, ?_⟩
  intro patience limit hlimit
  have hfuel : fuel settings patience = limit + 1 := by simp [fuel, hlimit]
  have hstart : (Run.start settings observed m).cycles = 0 := rfl
  obtain ⟨ending, r, heq, hcycles⟩ : ∃ ending r,
      (Run.start settings observed m).advance settings program (limit + 1) = (some ending, r) ∧
        r.cycles ≤ limit :=
    Run.advance_ends program hlimit (by omega) (by omega)
  obtain ⟨termination, rfl⟩ := hends _ _ _ heq
  exact ⟨termination, r, by rw [run, hfuel, heq], hcycles⟩

/-- A loop that fills a stack of one cell and writes to a heap that holds nothing, on an input that
fails. -/
theorem run_neverFails_loop :
    Console.NeverFails ⟨{ rest := [], failing := true }, {}⟩ ∧
    ∃ termination r,
      run { stackCapacity := 1, heapCapacity := 0, maxCycles := some 100 } 0 true
          #[65, 68, 83, 100, 74]
          (create {} ⟨{ rest := [], failing := true }, {}⟩ (RandomSource.ofSeed 0)
            { seconds := fun _ => 0 }) =
        (some (.ended termination), r) ∧ r.cycles ≤ 100 := by
  have hout : Console.NeverFails ⟨{ rest := [], failing := true }, {}⟩ :=
    Output.Unlimited.neverFails ⟨rfl, rfl⟩
  exact ⟨hout, (run_neverFails _ _ _ (create {} _ _ _) hout).2.2 0 100 rfl⟩

end Machine

end ErrorFree
