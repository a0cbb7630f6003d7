import ErrorFree.Binary64.Arithmetic
import Std.Data.ExtTreeMap

/-!
# The heap

Sparse memory addressed by whole numbers.  Reading an address that holds nothing gives zero.

**Addresses.**  An address is rounded down; one that is not finite counts as zero when it is written
and holds nothing when it is read.

**Eviction.**  The first write of a new address that finds `capacity` addresses resident
exhausts the heap for good.  From then on the write of a new address first removes the lowest or
the highest resident address, whichever is farther from the new one, the highest if both are
equally far. Writing a resident address never removes anything.
-/

namespace ErrorFree

/-- Sparse memory that evicts. -/
structure Heap where
  /-- The values at the resident addresses. -/
  values : Std.ExtTreeMap Int Binary64
  /-- How many addresses may be resident. -/
  capacity : Nat
  /-- A write was once refused a new address. -/
  exhausted : Bool

namespace Heap

open Binary64

/-- The empty heap. -/
def empty (capacity : Nat) : Heap :=
  { values := ∅, capacity, exhausted := false }

/-- The capacity used when none is given. -/
def defaultCapacity : Nat := Nat.pow 2 20

/-- The address that is meant: rounded down, zero for what is not finite. -/
def normalize (address : Binary64) : Int := address.floorInt

/-- The resident addresses with their values, ascending. -/
def cells (h : Heap) : List (Binary64 × Binary64) :=
  h.values.toList.map fun c => (ofInt c.1, c.2)

/-- The lowest resident address. -/
def min? (h : Heap) : Option Binary64 := h.values.minKey?.map ofInt

/-- The highest resident address. -/
def max? (h : Heap) : Option Binary64 := h.values.maxKey?.map ofInt

/-- Which of the extremes `low` and `high` makes room for a new address.  The distances are
compared after rounding. -/
def victim (address low high : Int) : Int :=
  if (ofInt high - ofInt address).less (ofInt address - ofInt low) then low else high

/-- The values after a new address has taken the place of an extreme one.  Without any resident
address there is no place. -/
def displace (address : Int) (value : Binary64) (values : Std.ExtTreeMap Int Binary64) :
    Std.ExtTreeMap Int Binary64 :=
  match values.minKey?, values.maxKey? with
  | some low, some high => (values.erase (victim address low high)).insert address value
  | _, _ => values

/-- Stores a value at an address. -/
def write (h : Heap) (address value : Binary64) : Heap :=
  let address := normalize address
  if h.values.contains address then { h with values := h.values.insert address value }
  else if h.exhausted = false ∧ h.values.size < h.capacity then
    { h with values := h.values.insert address value }
  else { h with values := displace address value h.values, exhausted := true }

/-- The value at an address, zero if it is not resident.  Resident addresses are whole numbers, so
that nothing is resident at what is not finite; without the test it would be read at zero, where
`normalize` puts it when it is written. -/
def read (h : Heap) (address : Binary64) : Binary64 :=
  if address.isFinite then h.values.getD (normalize address) zero else zero

/-- How many addresses are resident. -/
def length (h : Heap) : Nat := h.values.size

end Heap

end ErrorFree
