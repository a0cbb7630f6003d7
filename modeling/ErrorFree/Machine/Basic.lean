import ErrorFree.Console.Basic
import ErrorFree.Heap
import ErrorFree.Random.Source
import ErrorFree.Settings
import ErrorFree.Stack

/-!
# The machine

What a running program works on: a stack, a heap, the console, random values and a clock.
-/

namespace ErrorFree

/-- The readings of the clocks, given in advance. -/
structure Clock where
  /-- The readings of the time of day, in seconds since 1970, by number. -/
  seconds : Nat → Int
  /-- How many of them were taken. -/
  taken : Nat := 0
  /-- The readings of the stop watch, in nanoseconds: the first at the start of a run, the others
  when progress is checked. -/
  stopwatch : Nat → Nat := fun _ => 0

/-- Takes a reading of the time of day. -/
def Clock.read (c : Clock) : Int × Clock :=
  (c.seconds c.taken, { c with taken := c.taken + 1 })

/-- The state of a machine between two instructions. -/
structure Machine where
  stack : Stack
  heap : Heap
  console : Console
  random : RandomSource
  clock : Clock

namespace Machine

/-- The machine with its stack changed. -/
def onStack (f : Stack → Stack) : Machine → Machine
  | ⟨stack, heap, console, random, clock⟩ => ⟨f stack, heap, console, random, clock⟩

/-- The machine at the start of a run: an empty stack and an empty heap, all else as it was. -/
def reset (settings : RuntimeSettings) (m : Machine) : Machine :=
  { m with
    stack := Stack.empty settings.stackCapacity
    heap := Heap.empty settings.heapCapacity }

/-- A machine that has not run yet. -/
def create (settings : RuntimeSettings) (console : Console) (random : RandomSource)
    (clock : Clock) : Machine :=
  { stack := Stack.empty settings.stackCapacity
    heap := Heap.empty settings.heapCapacity
    console, random, clock }

end Machine

end ErrorFree
