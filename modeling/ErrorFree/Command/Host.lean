import ErrorFree.Files.Entry
import ErrorFree.Random.Source
import ErrorFree.Settings
import ErrorFree.Stats

/-!
# What commands need from their surroundings

The commands are written over a host, whose effects live in any monad: the system, or a world
that is a value.
-/

namespace ErrorFree

namespace Command

/-- The effects that commands use. -/
structure Host (m : Type → Type) where
  /-- What stands at the given paths; elsewhere the answer means nothing. -/
  files : List String → m (String → Entry)
  /-- Writes a file. -/
  save : String → List UInt8 → m (Except IoError Unit)
  /-- The home directory of the user, if there is one. -/
  home : m (Option String)
  /-- Tells the user a line, apart from program output.  It is assumed to arrive: there is no answer
  for a line that is lost, and no command goes on after one. -/
  say : String → m Unit
  /-- Prints a text where program output goes. -/
  print : String → m Unit
  /-- A seed that cannot be foreseen. -/
  entropy : m UInt64
  /-- Runs a program on the streams of the process.  Progress is shown under the name, if there is
  one. -/
  run : RuntimeSettings → RandomSource → Option String → Array UInt8 → m (Except IoError Stats)

/-- The random source of a seed, or one that cannot be foreseen. -/
def Host.source {m : Type → Type} [Monad m] (host : Host m) (seed : Option Nat) : m RandomSource :=
  match seed with
  | some seed => return RandomSource.ofSeed (UInt64.ofNat seed)
  | none => return RandomSource.ofSeed (← host.entropy)

end Command

end ErrorFree
