import ErrorFree.Machine.Progress
import ErrorFree.Machine.Step
import ErrorFree.Stats

/-!
# Running a program

**Turn.**  A run is a sequence of turns.  A turn looks at the byte under the cursor: behind the last
byte the run is completed; otherwise, if the cycle limit is reached, it ends there; otherwise, at
every 1024th cycle, an observer may report, and the instruction is carried out.

**End.**  A run that ends flushes the output once.  A failing output ends it at once, without that
flush.

**Fuel.**  `advance` takes the number of turns to make.  A run with a cycle limit of `n` needs
at most `n + 1` of them; a run without a limit may never end.
-/

namespace ErrorFree

/-- How a run ended. -/
inductive Ending where
  | ended (termination : Termination)
  | failed (error : IoError)
  deriving DecidableEq

/-- A run between two turns. -/
structure Run where
  machine : Machine
  /-- Position of the byte to be executed. -/
  cursor : Nat := 0
  /-- Instructions executed so far. -/
  cycles : Nat := 0
  /-- What an observer has seen, if there is one. -/
  observer : Option Observer := none

namespace Run

/-- The stop watch at its reading `k`, together with the time that reading input has taken. -/
def stopwatch (m : Machine) (k : Nat) : Nat :=
  m.clock.stopwatch k + m.console.input.waited

/-- A run at its start, on an empty stack and an empty heap. -/
def start (settings : RuntimeSettings) (observed : Bool) (m : Machine) : Run :=
  { machine := m.reset settings
    observer := if observed then some { lastReport := stopwatch m 0 } else none }

/-- The cycle limit is reached. -/
def atLimit (settings : RuntimeSettings) (r : Run) : Bool :=
  match settings.maxCycles with
  | none => false
  | some limit => decide (limit ≤ r.cycles)

/-- Lets the observer look, if it is time to. -/
def observe (length : Nat) (byte : UInt8) (r : Run) : Run :=
  match r.observer with
  | none => r
  | some observer =>
      if r.cycles % Observer.checkInterval = 0 then
        let now := stopwatch r.machine (r.cycles / Observer.checkInterval + 1)
        { r with observer := some (observer.check now ⟨r.cursor, length, r.cycles, byte⟩) }
      else r

/-- Ends a run with a flush. -/
def finish (termination : Termination) : Run → Ending × Run
  | ⟨⟨stack, heap, console, random, clock⟩, cursor, cycles, observer⟩ =>
      let (result, console) := console.flush
      let r : Run := ⟨⟨stack, heap, console, random, clock⟩, cursor, cycles, observer⟩
      match result with
      | .ok _ => (.ended termination, r)
      | .error e => (.failed e, r)

/-- Carries out the instruction at the cursor. -/
def step (settings : RuntimeSettings) (length : Nat) (byte : UInt8) : Run → Option Ending × Run
  | ⟨machine, cursor, cycles, observer⟩ =>
      match machine.execute settings length cursor (Opcode.decode byte) with
      | (.ok cursor, machine) => (none, ⟨machine, cursor, cycles + 1, observer⟩)
      | (.error e, machine) => (some (.failed e), ⟨machine, cursor, cycles + 1, observer⟩)

/-- One turn; the ending if it was the last. -/
def turn (settings : RuntimeSettings) (program : Array UInt8) (r : Run) : Option Ending × Run :=
  match program[r.cursor]? with
  | none =>
      let (ending, r) := r.finish .completed
      (some ending, r)
  | some byte =>
      if r.atLimit settings then
        let (ending, r) := r.finish .cycleLimit
        (some ending, r)
      else (r.observe program.size byte).step settings program.size byte

/-- Up to `fuel` turns; no ending if the run goes on. -/
def advance (settings : RuntimeSettings) (program : Array UInt8) : Nat → Run → Option Ending × Run
  | 0, r => (none, r)
  | fuel + 1, r =>
      match r.turn settings program with
      | (some ending, r) => (some ending, r)
      | (none, r) => advance settings program fuel r

end Run

namespace Machine

/-- How many turns a run gets: enough to reach its cycle limit, or, without a limit, `patience`. -/
def fuel (settings : RuntimeSettings) (patience : Nat) : Nat :=
  match settings.maxCycles with
  | some limit => limit + 1
  | none => patience

/-- Runs a program from its start. -/
def run (settings : RuntimeSettings) (patience : Nat) (observed : Bool) (program : Array UInt8)
    (m : Machine) : Option Ending × Run :=
  (Run.start settings observed m).advance settings program (fuel settings patience)

end Machine

/-- The wording of a failure that ended a run. -/
def outputFailure (e : IoError) : String := "Failed to write program output: " ++ e.message

end ErrorFree
