import ErrorFree.Config.File
import ErrorFree.Text.Blank
import ErrorFree.Text.Unsigned

/-!
# Variables of the environment

**Numbers** may have white space around them; a variable that is set and no number is an error.

**Flags** are on if they are `true`, `1` or `yes` in any mixture of cases, and off otherwise.  Only
the letters from `A` to `Z` have to be made small for that: no other letter has one of those in the
three words as its small letter.
-/

namespace ErrorFree

/-- The variables that are set, with their values. -/
abbrev Environment := String → Option String

namespace Environment

/-- A variable that holds a number. -/
def number (env : Environment) (name : String) : Except ConfigError (Option Nat) :=
  match env name with
  | none => .ok none
  | some raw =>
      match Text.unsigned? (Text.trimWhite raw.toList) with
      | some n => .ok (some n)
      | none => .error (.badVariable name raw)

/-- The value of a flag is one that switches it on. -/
def isOn (value : String) : Bool :=
  ["true", "1", "yes"].contains (String.ofList (value.toList.map Char.toLower))

/-- A variable that holds a flag. -/
def flag (env : Environment) (name : String) : Option Bool := (env name).map isOn

/-- What the variables say, as the top layer of a configuration. -/
def overrides (env : Environment) : Except ConfigError ConfigFile := do
  let stackCapacity ← env.number "EFRT_STACK_CAPACITY"
  let heapCapacity ← env.number "EFRT_HEAP_CAPACITY"
  let maxCycles ← env.number "EFRT_MAX_CYCLES"
  let seed ← env.number "EFRT_SEED"
  return {
    runtime := some
      { stackCapacity, heapCapacity, maxCycles, seed, autoZero := env.flag "EFRT_AUTO_ZERO" }
    display := some { progress := (env.flag "EFRT_NO_PROGRESS").map not } }

/-- The home directory that the variables name, if they name one. -/
def home? (env : Environment) : Option String := (env "HOME").filter fun home => home ≠ ""

end Environment

end ErrorFree
