import ErrorFree.Heap
import ErrorFree.Stack

/-!
# Settings of a run

What a run needs to know, with every default filled in.
-/

namespace ErrorFree

/-- Settings of the machine. -/
structure RuntimeSettings where
  /-- Cells of the stack. -/
  stackCapacity : Nat := Stack.defaultCapacity
  /-- Resident addresses of the heap. -/
  heapCapacity : Nat := Heap.defaultCapacity
  /-- How many instructions a run may take; none means that it is never cut short. -/
  maxCycles : Option Nat := none
  /-- Seed of the random values; none means that they cannot be foreseen. -/
  seed : Option Nat := none
  /-- Input instructions push zero instead of reading. -/
  autoZero : Bool := false
  deriving DecidableEq, Repr

/-- Settings of what is told about a run. -/
structure DisplaySettings where
  /-- Progress is shown. -/
  progress : Bool := true
  /-- A summary follows each run. -/
  summary : Bool := true
  deriving DecidableEq, Repr

end ErrorFree
