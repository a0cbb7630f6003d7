import ErrorFree.Binary64.Basic

/-!
# The operand stack

A last-in first-out store that neither overflows nor underflows.

**Growing.**  Until a push finds all `capacity` cells in use, the stack behaves like any other;
cells that were popped are used again.

**Exhausted.**  The first push that finds no room exhausts the stack for good.  The cells are then a
ring: the write position goes around, and a push drops the oldest value.

**Example.**  With capacity 4, after pushing `1 2 3 4 5 6` the cells are `5 6 3 4`, the write
position is 2, and four pops give `6 5 4 3`.

Popping an empty stack gives zero and changes nothing.
-/

namespace ErrorFree

/-- A bounded stack that drops its oldest value. -/
structure Stack where
  /-- The cells written so far, at most `capacity` of them. -/
  cells : Array Binary64
  /-- How many cells there may be. -/
  capacity : Nat
  /-- The position of the next write. -/
  pos : Nat
  /-- How many values can be popped. -/
  avail : Nat
  /-- A push was once refused a new cell. -/
  exhausted : Bool

namespace Stack

/-- The empty stack. -/
def empty (capacity : Nat) : Stack :=
  { cells := #[], capacity, pos := 0, avail := 0, exhausted := false }

/-- The capacity used when none is given. -/
def defaultCapacity : Nat := Nat.pow 2 20

/-- The position before a position of the ring. -/
def previous (s : Stack) (i : Nat) : Nat :=
  if i = 0 then s.cells.size - 1 else i - 1

/-- A push once the stack is exhausted: the next cell of the ring is overwritten.  Without any cell
the value is dropped. -/
def overwrite (s : Stack) (value : Binary64) : Stack :=
  if s.cells.size = 0 then s
  else
    { s with
      cells := s.cells.setIfInBounds s.pos value
      avail := min (s.avail + 1) s.cells.size
      pos := (s.pos + 1) % s.cells.size }

/-- Puts a value on top. -/
def push (s : Stack) (value : Binary64) : Stack :=
  if s.exhausted then s.overwrite value
  else if s.pos < s.cells.size then
    { s with
      cells := s.cells.setIfInBounds s.pos value
      avail := s.avail + 1
      pos := s.pos + 1 }
  else if s.cells.size < s.capacity then
    { s with cells := s.cells.push value, avail := s.avail + 1, pos := s.pos + 1 }
  else { s with exhausted := true, pos := 0 }.overwrite value

/-- The cell behind the write position, also when nothing can be popped; zero if no cell was ever
written. -/
def peek (s : Stack) : Binary64 :=
  s.cells.getD (s.previous s.pos) Binary64.zero

/-- The stack after a pop. -/
def drop (s : Stack) : Stack :=
  if s.avail = 0 then s else { s with avail := s.avail - 1, pos := s.previous s.pos }

/-- The value a pop gives. -/
def top (s : Stack) : Binary64 :=
  if s.avail = 0 then Binary64.zero else s.peek

/-- Takes the top value, zero when nothing is left. -/
def pop (s : Stack) : Binary64 × Stack := (s.top, s.drop)

/-- How many values can be popped. -/
def length (s : Stack) : Nat := s.avail

/-- Nothing can be popped. -/
def isEmpty (s : Stack) : Bool := s.avail == 0

/-- How many cells were ever in use. -/
def backing (s : Stack) : Nat := s.cells.size

/-- The values that up to `n` pops give, the top first. -/
def values : Nat → Stack → List Binary64
  | 0, _ => []
  | n + 1, s => if s.isEmpty then [] else s.top :: values n s.drop

end Stack

end ErrorFree
