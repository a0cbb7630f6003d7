import ErrorFree.Proofs.Machine.Instruction

/-!
# What a turn of a run does

**Cases.**  `turn_cases`: a turn ends the run behind the last byte or at the cycle limit, or it
carries out the instruction at the cursor.

**Inductions.**
* `advance_induction`: what a turn keeps, a run keeps.
* `advance_machine_induction`: what an instruction and a flush keep of the machine, a run keeps.

**Cycles.**  `advance_ends`: a run with a cycle limit ends, and not after more cycles than that.
-/

namespace ErrorFree

namespace Ending

/-- How a run ends whose last flush had the given result. -/
def ofFlush (termination : Termination) : Except IoError Unit → Ending
  | .ok _ => .ended termination
  | .error e => .failed e

/-- Whether an instruction ends a run, from what it got from the console. -/
def ofExchange : Except IoError Unit → Option Ending
  | .ok _ => none
  | .error e => some (.failed e)

end Ending

namespace Machine

/-- The machine after a flush. -/
def flushed (m : Machine) : Machine := { m with console := m.console.flush.2 }

end Machine

namespace Run

variable (settings : RuntimeSettings) (program : Array UInt8)

section Parts

theorem finish_eq (termination : Termination) (r : Run) :
    r.finish termination =
      (Ending.ofFlush termination r.machine.console.flush.1,
        { r with machine := r.machine.flushed }) := by
  unfold finish
  rcases heq : r.machine.console.flush with ⟨_ | _, _⟩ <;>
    simp [heq, Ending.ofFlush, Machine.flushed]

/-- The cursor after the instruction at it: the next position, or where it was if the output has
failed. -/
def landing (length : Nat) (op : Opcode) (r : Run) : Nat :=
  match (r.machine.exchange settings op).1 with
  | .ok _ => r.machine.next length r.cursor op
  | .error _ => r.cursor

theorem step_eq (length : Nat) (byte : UInt8) (r : Run) :
    r.step settings length byte =
      (Ending.ofExchange (r.machine.exchange settings (Opcode.decode byte)).1,
        { machine := r.machine.executed settings (Opcode.decode byte)
          cursor := r.landing settings length (Opcode.decode byte)
          cycles := r.cycles + 1
          observer := r.observer }) := by
  obtain ⟨machine, cursor, cycles, observer⟩ := r
  simp only [step, Machine.execute_eq]
  rcases heq : (machine.exchange settings (Opcode.decode byte)).1 with _ | _ <;>
    simp [heq, Except.map, Ending.ofExchange, landing]

/-- An observer only looks: nothing but what it has seen changes. -/
theorem observe_eq (length : Nat) (byte : UInt8) (r : Run) :
    r.observe length byte = { r with observer := (r.observe length byte).observer } := by
  unfold observe
  split
  · rfl
  · split <;> rfl

end Parts

section Turn

variable {settings program} {r : Run} {byte : UInt8}

/-- Behind the last byte the run is completed. -/
theorem turn_of_end (hbyte : program[r.cursor]? = none) :
    r.turn settings program = (r.finish .completed).map some id := by
  unfold turn
  rw [hbyte]
  rfl

/-- At the cycle limit the run ends. -/
theorem turn_of_limit (hbyte : program[r.cursor]? = some byte)
    (hlimit : r.atLimit settings = true) :
    r.turn settings program = (r.finish .cycleLimit).map some id := by
  unfold turn
  rw [hbyte, hlimit]
  rfl

/-- Otherwise the instruction at the cursor is carried out. -/
theorem turn_of_byte (hbyte : program[r.cursor]? = some byte)
    (hlimit : r.atLimit settings = false) :
    r.turn settings program = (r.observe program.size byte).step settings program.size byte := by
  unfold turn
  rw [hbyte, hlimit]
  rfl

variable (settings program) (r)

/-- A turn ends the run, or carries out an instruction. -/
theorem turn_cases :
    (program[r.cursor]? = none ∧
      r.turn settings program = (r.finish .completed).map some id) ∨
    (∃ byte, program[r.cursor]? = some byte ∧ r.atLimit settings = true ∧
      r.turn settings program = (r.finish .cycleLimit).map some id) ∨
    (∃ byte, program[r.cursor]? = some byte ∧ r.atLimit settings = false ∧
      r.turn settings program =
        (r.observe program.size byte).step settings program.size byte) := by
  cases hbyte : program[r.cursor]? with
  | none =>
      left
      exact ⟨rfl, turn_of_end hbyte⟩
  | some byte =>
      right
      cases hlimit : r.atLimit settings with
      | true =>
          left
          exact ⟨byte, rfl, rfl, turn_of_limit hbyte hlimit⟩
      | false =>
          right
          exact ⟨byte, rfl, rfl, turn_of_byte hbyte hlimit⟩

/-- The machine after a turn: flushed, or after the instruction at the cursor. -/
theorem turn_machine :
    (r.turn settings program).2.machine = r.machine.flushed ∨
    (∃ byte, program[r.cursor]? = some byte ∧
      (r.turn settings program).2.machine = r.machine.executed settings (Opcode.decode byte)) := by
  rcases turn_cases settings program r with ⟨_, heq⟩ | ⟨_, _, _, heq⟩ | ⟨byte, hbyte, _, heq⟩
  · left
    rw [heq, finish_eq]
    rfl
  · left
    rw [heq, finish_eq]
    rfl
  · right
    refine ⟨byte, hbyte, ?_⟩
    rw [heq, step_eq, observe_eq]

end Turn

section Inductions

variable {settings program} {r after : Run}

theorem advance_of_ended {ending : Ending} (h : r.turn settings program = (some ending, after))
    (fuel : Nat) : r.advance settings program (fuel + 1) = (some ending, after) := by
  simp [advance, h]

theorem advance_of_going (h : r.turn settings program = (none, after)) (fuel : Nat) :
    r.advance settings program (fuel + 1) = after.advance settings program fuel := by
  simp [advance, h]

/-- A run goes on from where it has come to. -/
theorem advance_add {fuel : Nat} (h : r.advance settings program fuel = (none, after))
    (more : Nat) :
    r.advance settings program (fuel + more) = after.advance settings program more := by
  induction fuel generalizing r with
  | zero =>
      obtain ⟨_, rfl⟩ := Prod.mk.inj h
      rw [Nat.zero_add]
  | succ fuel ih =>
      rw [Nat.succ_add]
      rcases hturn : r.turn settings program with ⟨_ | ending, next⟩
      · rw [advance_of_going hturn] at h ⊢
        exact ih h
      · rw [advance_of_ended hturn] at h
        cases h

variable (settings program)

/-- What a turn keeps, a run keeps. -/
theorem advance_induction {P : Run → Prop}
    (hkeep : ∀ r, P r → P (r.turn settings program).2) (h : P r) (fuel : Nat) :
    P (r.advance settings program fuel).2 := by
  induction fuel generalizing r with
  | zero => exact h
  | succ fuel ih =>
      have hnext := hkeep r h
      rcases hturn : r.turn settings program with ⟨_ | ending, after⟩
      · rw [hturn] at hnext
        rw [advance_of_going hturn]
        exact ih hnext
      · rw [hturn] at hnext
        rw [advance_of_ended hturn]
        exact hnext

/-- What an instruction and a flush keep of the machine, a run keeps. -/
theorem advance_machine_induction {P : Machine → Prop}
    (hexecute : ∀ m op, P m → P (m.executed settings op)) (hflush : ∀ m, P m → P m.flushed)
    (h : P r.machine) (fuel : Nat) : P (r.advance settings program fuel).2.machine := by
  refine advance_induction settings program (P := fun r => P r.machine) ?_ h fuel
  intro r h
  rcases turn_machine settings program r with heq | ⟨_, _, heq⟩
  · rw [heq]
    exact hflush _ h
  · rw [heq]
    exact hexecute _ _ h

end Inductions

section Cycles

variable {settings} {r : Run} {limit : Nat}

theorem atLimit_eq (hlimit : settings.maxCycles = some limit) (r : Run) :
    r.atLimit settings = decide (limit ≤ r.cycles) := by
  simp [atLimit, hlimit]

/-- A turn takes a run no further than its cycle limit. -/
theorem turn_cycles_le (hlimit : settings.maxCycles = some limit) (h : r.cycles ≤ limit) :
    (r.turn settings program).2.cycles ≤ limit := by
  rcases turn_cases settings program r with ⟨_, heq⟩ | ⟨_, _, _, heq⟩ | ⟨byte, _, hroom, heq⟩
  · rw [heq, finish_eq]
    exact h
  · rw [heq, finish_eq]
    exact h
  · rw [atLimit_eq hlimit, decide_eq_false_iff_not] at hroom
    rw [heq, observe_eq, step_eq]
    simp only
    omega

/-- A turn that does not end the run takes one cycle. -/
theorem turn_cycles {after : Run} (hgo : r.turn settings program = (none, after)) :
    after.cycles = r.cycles + 1 := by
  rcases turn_cases settings program r with ⟨_, heq⟩ | ⟨_, _, _, heq⟩ | ⟨byte, _, _, heq⟩
  · rw [heq] at hgo
    cases hgo
  · rw [heq] at hgo
    cases hgo
  · rw [heq, observe_eq, step_eq] at hgo
    obtain ⟨_, rfl⟩ := Prod.mk.inj hgo
    rfl

/-- A run with a cycle limit ends when it gets one turn more than the cycles it has left. -/
theorem advance_ends {fuel : Nat} (hlimit : settings.maxCycles = some limit)
    (h : r.cycles ≤ limit) (hfuel : limit < r.cycles + fuel) :
    ∃ ending after, r.advance settings program fuel = (some ending, after) ∧
      after.cycles ≤ limit := by
  induction fuel generalizing r with
  | zero => omega
  | succ fuel ih =>
      have hle := turn_cycles_le program hlimit h
      rcases hturn : r.turn settings program with ⟨_ | ending, after⟩
      · have hcycles := turn_cycles program hturn
        rw [hturn] at hle
        rw [advance_of_going hturn]
        exact ih hle (by omega)
      · rw [hturn] at hle
        exact ⟨ending, after, advance_of_ended hturn fuel, hle⟩

end Cycles

end Run

end ErrorFree
