import ErrorFree.Text.Escape

/-!
# Progress of a run

**Rule.**  Every 1024 cycles, before the next instruction, the clock is read; if at least half a
second has passed since the last report, or since the start, a snapshot is reported.
-/

namespace ErrorFree

/-- Where a running program is. -/
structure Snapshot where
  /-- The position of the byte about to be executed. -/
  cursor : Nat
  /-- The length of the program. -/
  length : Nat
  /-- How many instructions were executed so far. -/
  cycles : Nat
  /-- The byte at the cursor. -/
  byte : UInt8
  deriving DecidableEq

/-- The line that tells how far a named program has come. -/
def Snapshot.describe (name : String) (s : Snapshot) : String :=
  name ++ ": " ++ toString s.cursor ++ " / " ++ toString s.length ++ ", " ++ toString s.cycles ++
    " Cycles, Byte " ++ Text.escapeByte s.byte

/-- What an observer of a run has seen. -/
structure Observer where
  /-- The clock, in nanoseconds, at the last report or at the start. -/
  lastReport : Nat
  /-- The reports so far, oldest first. -/
  reports : Array Snapshot := #[]
  deriving DecidableEq

namespace Observer

/-- Cycles between two looks at the clock. -/
def checkInterval : Nat := 1024

/-- Nanoseconds between two reports: half a second. -/
def reportInterval : Nat := 500 * 1000000

/-- A look at the clock: reports if enough time has passed. -/
def check (o : Observer) (now : Nat) (snapshot : Snapshot) : Observer :=
  if o.lastReport + reportInterval ≤ now then
    { lastReport := now, reports := o.reports.push snapshot }
  else o

end Observer

end ErrorFree
