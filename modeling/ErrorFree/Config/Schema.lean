import ErrorFree.Config.File
import ErrorFree.Files.Entry
import ErrorFree.Text.Utf8
import ErrorFree.Toml.Document

/-!
# Configuration files as TOML

**Form.**  The root holds at most the sections `runtime` and `display`.  A section is a table of its
fields, each of which may be left out; it may also be an array that gives all fields in order, what
follows them being passed over.

**Refusals.**  Unknown names, and values of another kind than the field's, are refused; numbers
have to be natural numbers.
-/

namespace ErrorFree

namespace Schema

open Toml (Value Entries)

/-- A field that is a number. -/
def natural : Value → Option Nat
  | .integer n => if 0 ≤ n then some n.toNat else none
  | _ => none

/-- A field that is a yes or a no. -/
def flag : Value → Option Bool
  | .boolean b => some b
  | _ => none

/-- A field that may be left out. -/
def optional {α : Type} (read : Value → Option α) (entries : Entries) (name : String) :
    Option (Option α) :=
  match entries.lookup name with
  | none => some none
  | some value => (read value).map some

/-- All names are among the known ones. -/
def onlyKnown (names : List String) (entries : Entries) : Bool :=
  entries.all fun entry => names.contains entry.1

/-- The fields of the section about the machine, in order. -/
def runtimeFields : List String :=
  ["stack_capacity", "heap_capacity", "max_cycles", "seed", "auto_zero"]

/-- The fields of the section about what is told, in order. -/
def displayFields : List String := ["progress", "summary"]

/-- The section about the machine. -/
def runtime : Value → Option RuntimeSection
  | .table _ entries => do
      guard (onlyKnown runtimeFields entries)
      return {
        stackCapacity := ← optional natural entries "stack_capacity"
        heapCapacity := ← optional natural entries "heap_capacity"
        maxCycles := ← optional natural entries "max_cycles"
        seed := ← optional natural entries "seed"
        autoZero := ← optional flag entries "auto_zero" }
  | .array (stackCapacity :: heapCapacity :: maxCycles :: seed :: autoZero :: _) => do
      return {
        stackCapacity := some (← natural stackCapacity)
        heapCapacity := some (← natural heapCapacity)
        maxCycles := some (← natural maxCycles)
        seed := some (← natural seed)
        autoZero := some (← flag autoZero) }
  | _ => none

/-- The section about what is told. -/
def display : Value → Option DisplaySection
  | .table _ entries => do
      guard (onlyKnown displayFields entries)
      return {
        progress := ← optional flag entries "progress"
        summary := ← optional flag entries "summary" }
  | .array (progress :: summary :: _) => do
      return {
        progress := some (← flag progress)
        summary := some (← flag summary) }
  | _ => none

/-- The configuration that the entries of a document spell. -/
def file (entries : Entries) : Option ConfigFile := do
  guard (onlyKnown ["runtime", "display"] entries)
  return {
    runtime := ← optional runtime entries "runtime"
    display := ← optional display entries "display" }

end Schema

namespace ConfigFile

/-- The configuration that a text spells. -/
def parse (text : List Char) : Option ConfigFile := (Toml.Document.parse text).bind Schema.file

/-- The configuration in the file at a path. -/
def load (path : String) (entry : Entry) : Except ConfigError ConfigFile :=
  match entry.read with
  | .error .notFound => .error (.notFound path)
  | .error reason => .error (.unreadable reason)
  | .ok bytes =>
      match Utf8.decode? bytes with
      | none => .error (.unreadable .invalidText)
      | some text =>
          match parse text with
          | none => .error (.badSyntax path)
          | some file => file.validate.map fun _ => file

end ConfigFile

end ErrorFree
