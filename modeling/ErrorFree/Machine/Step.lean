import ErrorFree.Machine.Basic
import ErrorFree.Machine.Jump
import ErrorFree.Number.Coercion
import ErrorFree.Number.Lenient
import ErrorFree.Number.Text
import ErrorFree.Opcode

/-!
# One instruction

`Machine.execute` carries out an instruction and gives the position of the next one.  No instruction
fails by itself; only the output may refuse what is written or flushed, and then the machine is left
as it was when that happened.

**Operands.**  A binary operator takes the top value as its right operand and the one below as its
left operand.
-/

namespace ErrorFree

section Operators

/-- The result of a binary operator. -/
def BinaryOp.apply : BinaryOp → Binary64 → Binary64 → Binary64
  | .add, a, b => a + b
  | .sub, a, b => a - b
  | .mul, a, b => a * b
  | .div, a, b => Number.divide a b
  | .rem, a, b => a.rem b
  | .pow, a, b => a.pow b
  | .equal, a, b => Number.truth (a.equal b)
  | .greater, a, b => Number.truth (b.less a)
  | .less, a, b => Number.truth (a.less b)

/-- The result of a unary operator. -/
def UnaryOp.apply : UnaryOp → Binary64 → Binary64
  | .abs, x => x.abs
  | .sign, x => Number.sign x
  | .sqrt, x => Number.sqrt x
  | .log10, x => Number.log10 x
  | .floor, x => x.floor
  | .ceil, x => x.ceil

end Operators

namespace Stack

/-- Replaces the two top values by the result of an operator. -/
def binary (op : BinaryOp) (s : Stack) : Stack :=
  let b := s.top
  let s := s.drop
  let a := s.top
  s.drop.push (op.apply a b)

/-- Replaces the top value by the result of an operator. -/
def unary (op : UnaryOp) (s : Stack) : Stack :=
  let x := s.top
  s.drop.push (op.apply x)

/-- Pushes the cell behind the write position once more. -/
def dup (s : Stack) : Stack := s.push s.peek

/-- Exchanges the two top values. -/
def swap (s : Stack) : Stack :=
  let b := s.top
  let s := s.drop
  let a := s.top
  (s.drop.push b).push a

end Stack

namespace Machine

/-- Writes a character. -/
def putChar : Machine → Except IoError Unit × Machine
  | ⟨stack, heap, console, random, clock⟩ =>
      let (result, console) := console.writeChar (Number.toChar stack.top)
      (result, ⟨stack.drop, heap, console, random, clock⟩)

/-- Writes a number on a line of its own. -/
def putNumber : Machine → Except IoError Unit × Machine
  | ⟨stack, heap, console, random, clock⟩ =>
      let (result, console) := console.writeLine (Number.toChars stack.top)
      (result, ⟨stack.drop, heap, console, random, clock⟩)

/-- Pushes the next byte of input, minus one at its end. -/
def getByte : Machine → Except IoError Unit × Machine
  | ⟨stack, heap, console, random, clock⟩ =>
      match console.readByte with
      | (.error e, console) => (.error e, ⟨stack, heap, console, random, clock⟩)
      | (.ok none, console) => (.ok (), ⟨stack.push Binary64.negOne, heap, console, random, clock⟩)
      | (.ok (some byte), console) =>
          (.ok (), ⟨stack.push (Binary64.ofNat byte.toNat), heap, console, random, clock⟩)

/-- Pushes the number in the next line of input, zero at its end. -/
def getNumber : Machine → Except IoError Unit × Machine
  | ⟨stack, heap, console, random, clock⟩ =>
      match console.readLine with
      | (.error e, console) => (.error e, ⟨stack, heap, console, random, clock⟩)
      | (.ok line, console) =>
          (.ok (), ⟨stack.push (Number.parseChars (line.getD [])), heap, console, random, clock⟩)

/-- Pushes a random value. -/
def pushRandom : Machine → Machine
  | ⟨stack, heap, console, random, clock⟩ =>
      let (value, random) := random.nextUnit
      ⟨stack.push value, heap, console, random, clock⟩

/-- Pushes the time of day. -/
def pushTime : Machine → Machine
  | ⟨stack, heap, console, random, clock⟩ =>
      let (seconds, clock) := clock.read
      ⟨stack.push (Binary64.ofInt seconds), heap, console, random, clock⟩

/-- Stores the second value at the address on top. -/
def store : Machine → Machine
  | ⟨stack, heap, console, random, clock⟩ =>
      let address := stack.top
      let stack := stack.drop
      ⟨stack.drop, heap.write address stack.top, console, random, clock⟩

/-- Replaces the address on top by the value stored there. -/
def load : Machine → Machine
  | ⟨stack, heap, console, random, clock⟩ =>
      let value := heap.read stack.top
      ⟨stack.drop.push value, heap, console, random, clock⟩

/-- Where the program goes on after a jump: a distance of zero, or one that is not finite, is no
jump. -/
def jumpTarget (length cursor : Nat) (offset : Binary64) : Nat :=
  let offset := Number.finiteOrZero offset
  if offset.equal Binary64.zero then cursor + 1 else Jump.target cursor offset length

/-- The result of an instruction that goes on with the next position. -/
def proceed (cursor : Nat) : Except IoError Unit × Machine → Except IoError Nat × Machine
  | (.ok _, m) => (.ok (cursor + 1), m)
  | (.error e, m) => (.error e, m)

/-- Carries out an instruction at `cursor` in a program of `length` bytes and gives the position of
the next one. -/
def execute (settings : RuntimeSettings) (length cursor : Nat) (op : Opcode) (m : Machine) :
    Except IoError Nat × Machine :=
  match op with
  | .binary op => (.ok (cursor + 1), m.onStack (Stack.binary op))
  | .unary op => (.ok (cursor + 1), m.onStack (Stack.unary op))
  | .dup => (.ok (cursor + 1), m.onStack Stack.dup)
  | .swap => (.ok (cursor + 1), m.onStack Stack.swap)
  | .putChar => proceed cursor m.putChar
  | .putNumber => proceed cursor m.putNumber
  | .getByte =>
      if settings.autoZero then (.ok (cursor + 1), m.onStack (·.push Binary64.zero))
      else proceed cursor m.getByte
  | .getNumber =>
      if settings.autoZero then (.ok (cursor + 1), m.onStack (·.push Binary64.zero))
      else proceed cursor m.getNumber
  | .random => (.ok (cursor + 1), m.pushRandom)
  | .time => (.ok (cursor + 1), m.pushTime)
  | .jump => (.ok (jumpTarget length cursor m.stack.top), m.onStack Stack.drop)
  | .store => (.ok (cursor + 1), m.store)
  | .load => (.ok (cursor + 1), m.load)
  | .nop => (.ok (cursor + 1), m)
  | .literal byte => (.ok (cursor + 1), m.onStack (·.push (Binary64.ofNat byte.toNat)))

end Machine

end ErrorFree
