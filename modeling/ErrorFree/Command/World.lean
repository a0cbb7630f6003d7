import ErrorFree.Command.Perform
import ErrorFree.Files.Tree

/-!
# A world to run commands in

Everything that a command can see or change, as a value: files, streams, clocks, chance.
Commands run in it give an exit code and the world after them, or nothing, if a run without a
cycle limit takes longer than the world's patience.

**Assumption.**  Whatever the user is told arrives: a world takes every line.
-/

namespace ErrorFree

namespace Command

/-- What a command can see and change. -/
structure World where
  tree : FileTree := {}
  /-- The place of the working directory. -/
  current : List String := []
  environment : Environment := fun _ => none
  /-- The home directory, if there is one. -/
  home : Option String := environment.home?
  input : Input
  output : Output := {}
  /-- What the user was told apart from program output. -/
  told : String := ""
  clock : Clock
  /-- How long each run takes, in nanoseconds. -/
  elapsed : Nat := 0
  /-- The seed that stands for chance. -/
  chance : UInt64 := 0
  /-- How many turns a run without a cycle limit gets. -/
  patience : Nat

/-- Work in a world. -/
abbrev Simulation := StateT World Option

namespace World

/-- The path of the working directory. -/
def directory (w : World) : String := Path.ofSegments true w.current

/-- Saves a file. -/
def save (path : String) (content : List UInt8) (w : World) : Except IoError Unit × World :=
  match w.tree.save w.current path content with
  | .ok tree => (.ok (), { w with tree })
  | .error e => (.error e, w)

/-- Prints a text.  That the output refuses it is not noticed. -/
def print (text : String) (w : World) : World :=
  let (_, output) := w.output.write (Utf8.encode text.toList)
  let (_, output) := output.flush
  { w with output }

/-- Runs a program on the streams of the world. -/
def run (settings : RuntimeSettings) (source : RandomSource) (shown : Option String)
    (program : Array UInt8) (w : World) : Option (Except IoError Stats × World) :=
  let machine := Machine.create settings ⟨w.input, w.output⟩ source w.clock
  match machine.run settings w.patience shown.isSome program with
  | (none, _) => none
  | (some ending, r) =>
      let w := { w with
        input := r.machine.console.input
        output := r.machine.console.output
        clock := r.machine.clock }
      match ending with
      | .ended termination =>
          let stats : Stats :=
            { bytes := program.size, cycles := r.cycles, elapsed := w.elapsed, termination }
          some (.ok stats, w)
      | .failed e => some (.error e, w)

/-- The effects of commands, in a world. -/
def host : Host Simulation where
  files _ := fun w => some (w.tree.look w.current, w)
  save path content := fun w => some (w.save path content)
  home := fun w => some (w.home, w)
  say line := fun w => some ((), { w with told := w.told ++ line ++ "\n" })
  print text := fun w => some ((), w.print text)
  entropy := fun w => some (w.chance, w)
  run settings source shown program := fun w => w.run settings source shown program

/-- Carries out a command line: the exit code, and the world after it. -/
def command (arguments : List String) (w : World) : Option (Nat × World) :=
  perform host w.environment w.directory (Request.parse w.environment arguments) w

end World

end Command

end ErrorFree
