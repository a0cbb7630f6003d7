/-!
# Instructions

Every byte is an instruction.  The bytes listed in `Opcode.decode` are operators; every other byte
pushes its own value.
-/

namespace ErrorFree

/-- An operator with two operands, the lower one on the left. -/
inductive BinaryOp where
  | add | sub | mul | div | rem | pow | equal | greater | less
  deriving DecidableEq, Repr

/-- An operator with one operand. -/
inductive UnaryOp where
  | abs | sign | sqrt | log10 | floor | ceil
  deriving DecidableEq, Repr

/-- An instruction. -/
inductive Opcode where
  /-- Replaces the two top values by the result of an operator. -/
  | binary (op : BinaryOp)
  /-- Replaces the top value by the result of an operator. -/
  | unary (op : UnaryOp)
  /-- Pushes the cell below the write position once more. -/
  | dup
  /-- Exchanges the two top values. -/
  | swap
  /-- Writes one character. -/
  | putChar
  /-- Writes a number and a line break. -/
  | putNumber
  /-- Reads one byte of input. -/
  | getByte
  /-- Reads one line of input as a number. -/
  | getNumber
  /-- Pushes a random value from zero up to, but not including, one. -/
  | random
  /-- Pushes the time of day in seconds since 1970. -/
  | time
  /-- Jumps by a relative distance that wraps around the program. -/
  | jump
  /-- Stores a value in the heap. -/
  | store
  /-- Loads a value from the heap. -/
  | load
  /-- Does nothing. -/
  | nop
  /-- Pushes the value of the byte. -/
  | literal (byte : UInt8)
  deriving DecidableEq, Repr

namespace Opcode

/-- The instruction of a printable byte, for those that are operators. -/
def ofChar? : Char → Option Opcode
  | '+' => some (.binary .add)
  | '-' => some (.binary .sub)
  | '*' => some (.binary .mul)
  | '/' => some (.binary .div)
  | '%' => some (.binary .rem)
  | '^' => some (.binary .pow)
  | '=' => some (.binary .equal)
  | '>' => some (.binary .greater)
  | '<' => some (.binary .less)
  | 'd' => some .dup
  | 't' => some .swap
  | 'a' => some (.unary .abs)
  | 's' => some (.unary .sign)
  | 'r' => some (.unary .sqrt)
  | 'l' => some (.unary .log10)
  | 'f' => some (.unary .floor)
  | 'c' => some (.unary .ceil)
  | 'C' => some .putChar
  | 'N' => some .putNumber
  | 'D' => some .getByte
  | 'O' => some .getNumber
  | 'R' => some .random
  | 'T' => some .time
  | 'J' => some .jump
  | 'S' => some .store
  | 'L' => some .load
  | '\n' => some .nop
  | '\r' => some .nop
  | _ => none

/-- The instruction of a byte. -/
def decode (byte : UInt8) : Opcode :=
  (ofChar? (Char.ofNat byte.toNat)).getD (.literal byte)

end Opcode

end ErrorFree
