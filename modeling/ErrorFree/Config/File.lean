import ErrorFree.Config.Error
import ErrorFree.Settings

/-!
# Configuration files

**Fields.**  What a file says, field by field; every field may be left out, and so may a section
as a whole.

**Layers.**  `merge` lays one file over another: each field that the upper one sets replaces the
lower one's.

**Settings.**  `runtimeSettings` and `displaySettings` fill in the defaults.
-/

namespace ErrorFree

/-- The section about the machine. -/
structure RuntimeSection where
  stackCapacity : Option Nat := none
  heapCapacity : Option Nat := none
  maxCycles : Option Nat := none
  seed : Option Nat := none
  autoZero : Option Bool := none
  deriving DecidableEq, Repr

/-- The section about what is told. -/
structure DisplaySection where
  progress : Option Bool := none
  summary : Option Bool := none
  deriving DecidableEq, Repr

/-- What a configuration file says. -/
structure ConfigFile where
  runtime : Option RuntimeSection := none
  display : Option DisplaySection := none
  deriving DecidableEq, Repr

/-- One section laid over another. -/
def RuntimeSection.merge (lower upper : RuntimeSection) : RuntimeSection :=
  { stackCapacity := upper.stackCapacity.or lower.stackCapacity
    heapCapacity := upper.heapCapacity.or lower.heapCapacity
    maxCycles := upper.maxCycles.or lower.maxCycles
    seed := upper.seed.or lower.seed
    autoZero := upper.autoZero.or lower.autoZero }

/-- One section laid over another. -/
def DisplaySection.merge (lower upper : DisplaySection) : DisplaySection :=
  { progress := upper.progress.or lower.progress
    summary := upper.summary.or lower.summary }

/-- The first setting of a section that is zero and must not be. -/
def RuntimeSection.zero? (s : RuntimeSection) : Option PositiveSetting :=
  if s.stackCapacity = some 0 then some .stackCapacity
  else if s.heapCapacity = some 0 then some .heapCapacity
  else if s.maxCycles = some 0 then some .maxCycles
  else none

namespace ConfigFile

/-- One file laid over another. -/
def merge (lower upper : ConfigFile) : ConfigFile :=
  { runtime := match upper.runtime with
      | none => lower.runtime
      | some sec => some ((lower.runtime.getD {}).merge sec)
    display := match upper.display with
      | none => lower.display
      | some sec => some ((lower.display.getD {}).merge sec) }

/-- The first setting that is zero and must not be. -/
def zero? (f : ConfigFile) : Option PositiveSetting := f.runtime.bind RuntimeSection.zero?

/-- Refuses a file with a zero, naming the first. -/
def validate (f : ConfigFile) : Except ConfigError Unit :=
  match f.zero? with
  | some setting => .error (.zero setting)
  | none => .ok ()

/-- The settings of the machine: those of the file, the defaults for the others. -/
def runtimeSettings (f : ConfigFile) : RuntimeSettings :=
  let given := f.runtime.getD {}
  let defaults : RuntimeSettings := {}
  { stackCapacity := given.stackCapacity.getD defaults.stackCapacity
    heapCapacity := given.heapCapacity.getD defaults.heapCapacity
    maxCycles := given.maxCycles.or defaults.maxCycles
    seed := given.seed.or defaults.seed
    autoZero := given.autoZero.getD defaults.autoZero }

/-- The settings of what is told: those of the file, the defaults for the others. -/
def displaySettings (f : ConfigFile) : DisplaySettings :=
  let given := f.display.getD {}
  let defaults : DisplaySettings := {}
  { progress := given.progress.getD defaults.progress
    summary := given.summary.getD defaults.summary }

end ConfigFile

end ErrorFree
