import ErrorFree.Proofs.Machine.Turn

/-!
# Capacities that make no difference

**Fitting.**  A stack or a heap fits a capacity if it is not exhausted and uses no more than that.
What fits after an instruction fitted before: exhaustion is for good, and no cell and no address
is given back before it.

**Simulation.**  `withCapacity` puts another capacity in the place of the one there is.  If the
result of a push or a write fits, another capacity gives the same result; hence an instruction, a
turn and a run commute with the exchange of the capacities, as long as the last state fits.

**Result.**  `run_of_capacities`: a run that has exhausted neither the stack nor the heap is the
same run with all capacities that are not below what it has used.
-/

namespace ErrorFree

namespace Stack

variable {s : Stack} {v : Binary64} {c : Nat}

/-- The stack with another capacity. -/
def withCapacity (c : Nat) (s : Stack) : Stack := { s with capacity := c }

/-- Not exhausted, with no more cells than a capacity allows. -/
def Fits (c : Nat) (s : Stack) : Prop := s.exhausted = false ∧ s.cells.size ≤ c

theorem fits_of_push (h : (s.push v).Fits c) : s.Fits c := by
  have hsize := h.2
  obtain ⟨hex, ⟨_, heq⟩ | ⟨_, _, heq⟩⟩ := push_cases_of_growing h.1
  · rw [heq] at hsize
    simp only [Array.size_setIfInBounds] at hsize
    exact ⟨hex, hsize⟩
  · rw [heq] at hsize
    simp only [Array.size_push] at hsize
    exact ⟨hex, by omega⟩

theorem fits_of_drop (h : s.drop.Fits c) : s.Fits c := by
  unfold drop at h
  split at h
  · exact h
  · exact h

/-- The capacity makes no difference to a push whose result fits. -/
theorem push_withCapacity (h : (s.push v).Fits c) :
    (s.withCapacity c).push v = (s.push v).withCapacity c := by
  have hsize := h.2
  obtain ⟨hex, ⟨hpos, heq⟩ | ⟨hpos, _, heq⟩⟩ := push_cases_of_growing h.1
  · rw [heq]
    simp [withCapacity, push, hex, hpos]
  · rw [heq] at hsize ⊢
    simp only [Array.size_push] at hsize
    have hnot : ¬ s.pos < s.cells.size := by omega
    have hroom : s.cells.size < c := by omega
    simp [withCapacity, push, hex, hnot, hroom]

@[simp] theorem top_withCapacity (c : Nat) (s : Stack) : (s.withCapacity c).top = s.top := rfl

@[simp] theorem drop_withCapacity (c : Nat) (s : Stack) :
    (s.withCapacity c).drop = s.drop.withCapacity c := by
  unfold drop withCapacity
  split <;> rfl

theorem fits_of_performAll {accesses : List Access} (h : (s.performAll accesses).Fits c) :
    s.Fits c := by
  induction accesses generalizing s with
  | nil => exact h
  | cons access accesses ih =>
      cases access with
      | push v => exact fits_of_push (ih h)
      | pop => exact fits_of_drop (ih h)
      | peek => exact ih h

/-- The capacity makes no difference to accesses whose result fits. -/
theorem performAll_withCapacity {accesses : List Access} (h : (s.performAll accesses).Fits c) :
    (s.withCapacity c).performAll accesses = (s.performAll accesses).withCapacity c := by
  induction accesses generalizing s with
  | nil => rfl
  | cons access accesses ih =>
      cases access with
      | push v =>
          have hpush := push_withCapacity (fits_of_performAll (s := s.push v) h)
          show ((s.withCapacity c).push v).performAll accesses = _
          rw [hpush]
          exact ih h
      | pop =>
          show ((s.withCapacity c).drop).performAll accesses = _
          rw [drop_withCapacity]
          exact ih h
      | peek => exact ih h

end Stack

namespace Heap

variable {h : Heap} {a v : Binary64} {c : Nat}

/-- The heap with another capacity. -/
def withCapacity (c : Nat) (h : Heap) : Heap := { h with capacity := c }

/-- Not exhausted, with no more addresses than a capacity allows. -/
def Fits (c : Nat) (h : Heap) : Prop := h.exhausted = false ∧ h.values.size ≤ c

theorem fits_of_write (hf : (h.write a v).Fits c) : h.Fits c := by
  obtain ⟨hex, hsize⟩ := hf
  rcases write_cases h a v with ⟨hmem, heq⟩ | ⟨hnew, hgrow, _, heq⟩ | ⟨_, _, heq⟩
  · rw [heq] at hex hsize
    exact ⟨hex, by simpa only [size_insert_of_mem hmem] using hsize⟩
  · rw [heq] at hsize
    simp only [size_insert_of_not_mem hnew] at hsize
    exact ⟨hgrow, by omega⟩
  · rw [heq] at hex
    cases hex

/-- The capacity makes no difference to a write whose result fits. -/
theorem write_withCapacity (hf : (h.write a v).Fits c) :
    (h.withCapacity c).write a v = (h.write a v).withCapacity c := by
  obtain ⟨hex, hsize⟩ := hf
  rcases write_cases h a v with ⟨hmem, heq⟩ | ⟨hnew, hgrow, _, heq⟩ | ⟨_, _, heq⟩
  · rw [heq]
    simp [withCapacity, write, hmem]
  · rw [heq] at hsize ⊢
    simp only [size_insert_of_not_mem hnew] at hsize
    have hroom : h.values.size < c := by omega
    simp [withCapacity, write, hnew, hgrow, hroom]
  · rw [heq] at hex
    cases hex

theorem fits_of_writeAll {writes : List (Binary64 × Binary64)} (hf : (h.writeAll writes).Fits c) :
    h.Fits c := by
  induction writes generalizing h with
  | nil => exact hf
  | cons w writes ih => exact fits_of_write (ih hf)

/-- The capacity makes no difference to writes whose result fits. -/
theorem writeAll_withCapacity {writes : List (Binary64 × Binary64)}
    (hf : (h.writeAll writes).Fits c) :
    (h.withCapacity c).writeAll writes = (h.writeAll writes).withCapacity c := by
  induction writes generalizing h with
  | nil => rfl
  | cons w writes ih =>
      have hwrite := write_withCapacity (fits_of_writeAll (h := h.write w.1 w.2) hf)
      show ((h.withCapacity c).write w.1 w.2).writeAll writes = _
      rw [hwrite]
      exact ih hf

end Heap

/-- The settings with other capacities. -/
def RuntimeSettings.withCapacities (c d : Nat) (settings : RuntimeSettings) : RuntimeSettings :=
  { settings with stackCapacity := c, heapCapacity := d }

namespace Machine

variable (settings : RuntimeSettings) {m : Machine} {c d : Nat}

/-- The machine with other capacities. -/
def withCapacities (c d : Nat) (m : Machine) : Machine :=
  { m with stack := m.stack.withCapacity c, heap := m.heap.withCapacity d }

/-- Stack and heap fit their capacities. -/
def Fits (c d : Nat) (m : Machine) : Prop := m.stack.Fits c ∧ m.heap.Fits d

@[simp] theorem stack_withCapacities (m : Machine) :
    (m.withCapacities c d).stack = m.stack.withCapacity c := rfl

theorem accesses_withCapacities (op : Opcode) (m : Machine) :
    (m.withCapacities c d).accesses (settings.withCapacities c d) op = m.accesses settings op := by
  cases op with
  | binary | swap => simp [accesses]
  | _ => rfl

theorem writes_withCapacities (op : Opcode) (m : Machine) :
    (m.withCapacities c d).writes op = m.writes op := by
  cases op with
  | store => simp [writes]
  | _ => rfl

theorem exchange_withCapacities (op : Opcode) (m : Machine) :
    (m.withCapacities c d).exchange (settings.withCapacities c d) op = m.exchange settings op := by
  cases op <;> rfl

theorem fits_of_executed {op : Opcode} (h : (m.executed settings op).Fits c d) : m.Fits c d :=
  ⟨Stack.fits_of_performAll h.1, Heap.fits_of_writeAll h.2⟩

/-- The capacities make no difference to an instruction after which the machine fits. -/
theorem executed_withCapacities {op : Opcode} (h : (m.executed settings op).Fits c d) :
    (m.withCapacities c d).executed (settings.withCapacities c d) op =
      (m.executed settings op).withCapacities c d := by
  have hstack := Stack.performAll_withCapacity h.1
  have hheap := Heap.writeAll_withCapacity h.2
  unfold executed
  rw [accesses_withCapacities, writes_withCapacities, exchange_withCapacities]
  simp only [withCapacities]
  rw [hstack, hheap]
  cases op <;> rfl

end Machine

namespace Run

variable (settings : RuntimeSettings) (program : Array UInt8) {r : Run} {c d : Nat}

/-- The run with other capacities. -/
def withCapacities (c d : Nat) (r : Run) : Run :=
  { r with machine := r.machine.withCapacities c d }

theorem observe_withCapacities (length : Nat) (byte : UInt8) (r : Run) :
    (r.withCapacities c d).observe length byte = (r.observe length byte).withCapacities c d := by
  obtain ⟨machine, cursor, cycles, _ | observer⟩ := r
  · rfl
  · by_cases hcheck : cycles % Observer.checkInterval = 0
    · simp only [observe, withCapacities, hcheck, if_true]
      rfl
    · simp only [observe, withCapacities, hcheck, if_false]

theorem finish_withCapacities (termination : Termination) (r : Run) :
    (r.withCapacities c d).finish termination =
      (r.finish termination).map id (withCapacities c d) := by
  rw [finish_eq, finish_eq]
  rfl

theorem landing_withCapacities (length : Nat) (op : Opcode) (r : Run) :
    (r.withCapacities c d).landing (settings.withCapacities c d) length op =
      r.landing settings length op := by
  simp only [landing, withCapacities, Machine.exchange_withCapacities]
  cases op <;> rfl

theorem step_withCapacities (length : Nat) (byte : UInt8)
    (h : (r.step settings length byte).2.machine.Fits c d) :
    (r.withCapacities c d).step (settings.withCapacities c d) length byte =
      (r.step settings length byte).map id (withCapacities c d) := by
  rw [step_eq] at h ⊢
  rw [step_eq, landing_withCapacities]
  simp only [withCapacities, Machine.exchange_withCapacities,
    Machine.executed_withCapacities settings h]
  rfl

/-- The capacities make no difference to a turn after which the machine fits. -/
theorem turn_withCapacities (h : (r.turn settings program).2.machine.Fits c d) :
    (r.withCapacities c d).turn (settings.withCapacities c d) program =
      (r.turn settings program).map id (withCapacities c d) := by
  -- The cursor and the cycles decide what a turn does, and they are the same in both runs.
  cases hbyte : program[r.cursor]? with
  | none =>
      have hbyte' : program[(r.withCapacities c d).cursor]? = none := hbyte
      rw [turn_of_end hbyte, turn_of_end hbyte', finish_withCapacities]
      rfl
  | some byte =>
      have hbyte' : program[(r.withCapacities c d).cursor]? = some byte := hbyte
      cases hlimit : r.atLimit settings with
      | true =>
          have hlimit' : (r.withCapacities c d).atLimit (settings.withCapacities c d) = true :=
            hlimit
          rw [turn_of_limit hbyte hlimit, turn_of_limit hbyte' hlimit', finish_withCapacities]
          rfl
      | false =>
          have hlimit' : (r.withCapacities c d).atLimit (settings.withCapacities c d) = false :=
            hlimit
          rw [turn_of_byte hbyte hlimit] at h ⊢
          rw [turn_of_byte hbyte' hlimit', observe_withCapacities]
          exact step_withCapacities settings program.size byte h

theorem fits_of_turn (h : (r.turn settings program).2.machine.Fits c d) :
    r.machine.Fits c d := by
  rcases turn_machine settings program r with heq | ⟨_, _, heq⟩
  · rw [heq] at h
    exact h
  · rw [heq] at h
    exact Machine.fits_of_executed settings h

theorem fits_of_advance {fuel : Nat}
    (h : (r.advance settings program fuel).2.machine.Fits c d) : r.machine.Fits c d := by
  induction fuel generalizing r with
  | zero => exact h
  | succ fuel ih =>
      apply fits_of_turn settings program
      rcases hturn : r.turn settings program with ⟨_ | ending, after⟩
      · rw [advance_of_going hturn] at h
        exact ih h
      · rw [advance_of_ended hturn] at h
        exact h

/-- The capacities make no difference to a run that fits at its end. -/
theorem advance_withCapacities {fuel : Nat}
    (h : (r.advance settings program fuel).2.machine.Fits c d) :
    (r.withCapacities c d).advance (settings.withCapacities c d) program fuel =
      (r.advance settings program fuel).map id (withCapacities c d) := by
  induction fuel generalizing r with
  | zero => rfl
  | succ fuel ih =>
      rcases hturn : r.turn settings program with ⟨_ | ending, after⟩
      · rw [advance_of_going hturn] at h ⊢
        -- Only the last state is known to fit; the one after this turn does, as it leads there.
        have hfits : (r.turn settings program).2.machine.Fits c d := by
          rw [hturn]
          exact fits_of_advance settings program h
        have hturn' := turn_withCapacities settings program hfits
        rw [hturn] at hturn'
        rw [advance_of_going hturn']
        exact ih h
      · rw [advance_of_ended hturn] at h ⊢
        have hfits : (r.turn settings program).2.machine.Fits c d := by
          rw [hturn]
          exact h
        have hturn' := turn_withCapacities settings program hfits
        rw [hturn] at hturn'
        exact advance_of_ended hturn' fuel

end Run

namespace Machine

/-- **Capacities that were never reached make no difference.**  Let a run end, completed, at its
cycle limit or with a failure of the output, and let neither its stack nor its heap be exhausted
then.  With every capacity of the stack that is not below the cells in use at the end, and every
capacity of the heap not below the addresses resident at the end, the run ends in the same way,
after as many cycles, with the same console (output and input), random values, clock, stack cells
and heap cells, and exhausts nothing either. -/
theorem run_of_capacities (settings : RuntimeSettings) (patience : Nat) (observed : Bool)
    (program : Array UInt8) (m : Machine) (ending : Ending) (r : Run)
    (hrun : run settings patience observed program m = (some ending, r))
    (hstack : r.machine.stack.exhausted = false) (hheap : r.machine.heap.exhausted = false)
    (c d : Nat) (hc : r.machine.stack.backing ≤ c) (hd : r.machine.heap.length ≤ d) :
    ∃ r', run { settings with stackCapacity := c, heapCapacity := d } patience observed program m =
        (some ending, r') ∧
      r'.cycles = r.cycles ∧ r'.cursor = r.cursor ∧ r'.observer = r.observer ∧
      r'.machine.console = r.machine.console ∧ r'.machine.random = r.machine.random ∧
      r'.machine.clock = r.machine.clock ∧
      r'.machine.stack.cells = r.machine.stack.cells ∧
      r'.machine.stack.pos = r.machine.stack.pos ∧
      r'.machine.stack.avail = r.machine.stack.avail ∧
      r'.machine.heap.cells = r.machine.heap.cells ∧
      r'.machine.stack.exhausted = false ∧ r'.machine.heap.exhausted = false := by
  have hfits : ((Run.start settings observed m).advance settings program
      (fuel settings patience)).2.machine.Fits c d := by
    rw [run] at hrun
    rw [hrun]
    exact ⟨⟨hstack, hc⟩, ⟨hheap, hd⟩⟩
  have hsame := Run.advance_withCapacities settings program hfits
  refine ⟨r.withCapacities c d, ?_, rfl, rfl, rfl, rfl, rfl, rfl, rfl, rfl, rfl, rfl, hstack,
    hheap⟩
  rw [run] at hrun
  rw [hrun] at hsame
  exact hsame

/-- A program that stores a value and writes a character, with room to spare and with just the room
it needs. -/
theorem run_of_capacities_store :
    ∃ r r',
      run { stackCapacity := 8, heapCapacity := 8 } 9 false #[65, 66, 83, 67]
          (create {} ⟨{ rest := [] }, {}⟩ (RandomSource.ofSeed 0) { seconds := fun _ => 0 }) =
        (some (.ended .completed), r) ∧
      r.machine.stack.backing = 2 ∧ r.machine.heap.length = 1 ∧
      run { stackCapacity := 2, heapCapacity := 1 } 9 false #[65, 66, 83, 67]
          (create {} ⟨{ rest := [] }, {}⟩ (RandomSource.ofSeed 0) { seconds := fun _ => 0 }) =
        (some (.ended .completed), r') ∧
      r'.machine.console = r.machine.console := by
  have hrun : run { stackCapacity := 8, heapCapacity := 8 } 9 false #[65, 66, 83, 67]
      (create {} ⟨{ rest := [] }, {}⟩ (RandomSource.ofSeed 0) { seconds := fun _ => 0 }) =
      (some (.ended .completed), _) := Prod.ext (by decide) rfl
  obtain ⟨r', hrun', _, _, _, hconsole, _⟩ :=
    run_of_capacities _ _ _ _ _ _ _ hrun (by decide) (by decide) 2 1 (by decide) (by decide)
  exact ⟨_, r', hrun, by decide, by decide, hrun', hconsole⟩

end Machine

end ErrorFree
