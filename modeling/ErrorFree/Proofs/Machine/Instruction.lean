import ErrorFree.Machine.Run
import ErrorFree.Proofs.Heap.Write
import ErrorFree.Proofs.Stack.Access

/-!
# What an instruction does

An instruction acts on each part of the machine apart from the others.

* **Stack.**  `Machine.accesses` lists its accesses to the stack, in their order, with the values
  that it pushes.
* **Heap.**  `Machine.writes` lists its writes to the heap, at most one.
* **Console.**  `Machine.exchange` is what it writes or reads.
* **Random values, clock.**  `Machine.drawn` and `Machine.timed`.
* **Cursor.**  `Machine.next` is the position it leads to.

**Result.**  `execute_eq`: an instruction is these five together.  An invariant of the stack has to
be shown for a push and a pop, and one of the heap for a write; the equation carries it to every
instruction.
-/

namespace ErrorFree

namespace Machine

/-- The value of a byte of input, minus one at its end. -/
def byteValue (byte : Option UInt8) : Binary64 :=
  byte.elim Binary64.negOne fun b => Binary64.ofNat b.toNat

/-- The value of a line of input, zero at its end. -/
def lineValue (line : Option (List Char)) : Binary64 :=
  Number.parseChars (line.getD [])

/-- The push of what was read, unless the read failed. -/
def received {α : Type} (value : α → Binary64) : Except IoError α → List Access
  | .error _ => []
  | .ok a => [.push (value a)]

/-- The accesses of an instruction to the stack. -/
def accesses (settings : RuntimeSettings) (op : Opcode) (m : Machine) : List Access :=
  match op with
  | .binary op => [.pop, .pop, .push (op.apply m.stack.drop.top m.stack.top)]
  | .unary op => [.pop, .push (op.apply m.stack.top)]
  | .dup => [.peek, .push m.stack.peek]
  | .swap => [.pop, .pop, .push m.stack.top, .push m.stack.drop.top]
  | .putChar | .putNumber | .jump => [.pop]
  | .getByte =>
      if settings.autoZero then [.push Binary64.zero]
      else received byteValue m.console.readByte.1
  | .getNumber =>
      if settings.autoZero then [.push Binary64.zero]
      else received lineValue m.console.readLine.1
  | .random => [.push m.random.nextUnit.1]
  | .time => [.push (Binary64.ofInt m.clock.read.1)]
  | .store => [.pop, .pop]
  | .load => [.pop, .push (m.heap.read m.stack.top)]
  | .nop => []
  | .literal byte => [.push (Binary64.ofNat byte.toNat)]

/-- The writes of an instruction to the heap. -/
def writes (op : Opcode) (m : Machine) : List (Binary64 × Binary64) :=
  match op with
  | .store => [(m.stack.top, m.stack.drop.top)]
  | _ => []

/-- What an instruction does with the console. -/
def exchange (settings : RuntimeSettings) (op : Opcode) (m : Machine) :
    Except IoError Unit × Console :=
  match op with
  | .putChar => m.console.writeChar (Number.toChar m.stack.top)
  | .putNumber => m.console.writeLine (Number.toChars m.stack.top)
  | .getByte =>
      if settings.autoZero then (.ok (), m.console)
      else m.console.readByte.map (Except.map fun _ => ()) id
  | .getNumber =>
      if settings.autoZero then (.ok (), m.console)
      else m.console.readLine.map (Except.map fun _ => ()) id
  | _ => (.ok (), m.console)

/-- The random values that are left after an instruction. -/
def drawn (op : Opcode) (m : Machine) : RandomSource :=
  match op with
  | .random => m.random.nextUnit.2
  | _ => m.random

/-- The clock after an instruction. -/
def timed (op : Opcode) (m : Machine) : Clock :=
  match op with
  | .time => m.clock.read.2
  | _ => m.clock

/-- The position that an instruction leads to. -/
def next (length cursor : Nat) (op : Opcode) (m : Machine) : Nat :=
  match op with
  | .jump => jumpTarget length cursor m.stack.top
  | _ => cursor + 1

/-- The machine after an instruction. -/
def executed (settings : RuntimeSettings) (op : Opcode) (m : Machine) : Machine :=
  { stack := m.stack.performAll (m.accesses settings op)
    heap := m.heap.writeAll (m.writes op)
    console := (m.exchange settings op).2
    random := m.drawn op
    clock := m.timed op }

theorem proceed_eq (cursor : Nat) (r : Except IoError Unit × Machine) :
    proceed cursor r = (r.1.map fun _ => cursor + 1, r.2) := by
  obtain ⟨_ | _, _⟩ := r <;> rfl

theorem getByte_eq (m : Machine) :
    m.getByte =
      (m.console.readByte.1.map fun _ => (),
        { m with
          stack := m.stack.performAll (received byteValue m.console.readByte.1)
          console := m.console.readByte.2 }) := by
  unfold getByte
  rcases heq : m.console.readByte with ⟨_ | _ | _, _⟩ <;> simp only [heq] <;> rfl

theorem getNumber_eq (m : Machine) :
    m.getNumber =
      (m.console.readLine.1.map fun _ => (),
        { m with
          stack := m.stack.performAll (received lineValue m.console.readLine.1)
          console := m.console.readLine.2 }) := by
  unfold getNumber
  rcases heq : m.console.readLine with ⟨_ | _, _⟩ <;> simp only [heq] <;> rfl

/-- **An instruction part by part.** -/
theorem execute_eq (settings : RuntimeSettings) (length cursor : Nat) (op : Opcode) (m : Machine) :
    m.execute settings length cursor op =
      ((m.exchange settings op).1.map fun _ => m.next length cursor op,
        m.executed settings op) := by
  cases op with
  | putChar | putNumber => exact proceed_eq cursor _
  | getByte =>
      simp only [execute, executed, accesses, exchange]
      split
      · rfl
      · rw [proceed_eq, getByte_eq]
        rfl
  | getNumber =>
      simp only [execute, executed, accesses, exchange]
      split
      · rfl
      · rw [proceed_eq, getNumber_eq]
        rfl
  | _ => rfl

end Machine

end ErrorFree
