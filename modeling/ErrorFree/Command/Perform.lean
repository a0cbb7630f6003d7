import ErrorFree.Command.Failure
import ErrorFree.Command.Help
import ErrorFree.Command.Host
import ErrorFree.Command.Request
import ErrorFree.Machine.Run

/-!
# Carrying out requests

**Files.**  Files are run in order, each on a fresh machine; a file that cannot be found, read
or run is reported and passed over, and the command fails in the end.

**Random programs.**  The bytes come from the session's seed; the program runs with the next
seed, so that it does not see the values it was made of.  If it cannot be saved, it is not run.

**Status.**  Exit codes are 0 for success, 1 for a failure, which is reported, and 2 for a
command line that makes no sense.
-/

namespace ErrorFree

namespace Command

variable {m : Type → Type} [Monad m]

section Status

/-- A status line. -/
def statusLine (message : String) : String := "efrt: " ++ message

/-- A status line that a quiet session does not show. -/
def Host.info (host : Host m) (session : Session) (message : String) : m Unit :=
  if session.verbose then host.say (statusLine message) else pure ()

/-- The summary of a run. -/
def Host.summary (host : Host m) (session : Session) (stats : Stats) : m Unit :=
  if session.showsSummary then
    if session.json then host.say stats.json else host.info session stats.display
  else pure ()

end Status

/-- Runs a program under a name and tells about the run. -/
def execute (host : Host m) (session : Session) (name : String) (program : Array UInt8) :
    m (Except Failure Unit) := do
  let source ← host.source session.runtime.seed
  let shown := if session.showsProgress then some name else none
  match ← host.run session.runtime source shown program with
  | .error e =>
      return .error
        { message := "Failed while running " ++ name, causes := [outputFailure e, e.message] }
  | .ok stats =>
      host.summary session stats
      if stats.termination = .cycleLimit then
        host.info session ("Stopped \"" ++ name ++ "\" at the cycle limit.")
      return .ok ()

/-- Runs a program between two status lines. -/
def announce (host : Host m) (session : Session) (name : String)
    (run : m (Except Failure Unit)) : m (Except Failure Unit) := do
  host.info session ("Running file \"" ++ name ++ "\".")
  match ← run with
  | .error failure => return .error failure
  | .ok _ =>
      host.info session ("Finished running file \"" ++ name ++ "\".")
      return .ok ()

section Files

/-- The name of a program file: without its directory, or the path if it ends in no name. -/
def displayName (path : String) : String := (Path.fileName? path).getD path

/-- Runs the program in a file. -/
def runFile (host : Host m) (session : Session) (path : String) : m (Except Failure Unit) :=
  let name := displayName path
  announce host session name do
    let entry := (← host.files [path]) path
    if entry.isPresent then
      match entry.read with
      | .error e =>
          return .error
            { message := "Error occurred while trying to read file \"" ++ name ++ "\"."
              causes := [e.message] }
      | .ok content => execute host session name content.toArray
    else return .error { message := "File \"" ++ path ++ "\" could not be found." }

/-- Runs files one after the other; the number of those that failed. -/
def runEach (host : Host m) (session : Session) : List String → m Nat
  | [] => return 0
  | path :: rest => do
      let failed ← match ← runFile host session path with
        | .ok _ => pure 0
        | .error failure => do
            host.say (statusLine failure.line)
            pure 1
      return failed + (← runEach host session rest)

/-- Runs files one after the other. -/
def runFiles (host : Host m) (session : Session) (paths : List String) :
    m (Except Failure Unit) := do
  let failed ← runEach host session paths
  if failed = 0 then return .ok ()
  else
    return .error
      { message := toString failed ++ " of " ++ toString paths.length ++ " files failed" }

end Files

section Random

/-- The name of a random program. -/
def randomName : String := "Random Bytes"

/-- The seed after a seed. -/
def nextSeed (seed : Nat) : Nat := (seed + 1) % Nat.pow 2 64

/-- The session in which a random program runs. -/
def randomSession (session : Session) : Session :=
  { session with runtime := { session.runtime with seed := session.runtime.seed.map nextSeed } }

/-- Saves a random program, if a path is given. -/
def saveProgram (host : Host m) (session : Session) (save : Option String)
    (program : Array UInt8) : m (Except Failure Unit) :=
  match save with
  | none => return .ok ()
  | some path => do
      match ← host.save path program.toList with
      | .error e =>
          return .error
            { message := "Failed to save random program to " ++ path, causes := [e.message] }
      | .ok _ =>
          host.info session
            ("Saved " ++ toString program.size ++ " random bytes to \"" ++ path ++ "\".")
          return .ok ()

/-- Generates a program of a given length, saves it if asked to, and runs it. -/
def runRandom (host : Host m) (session : Session) (length : Nat) (save : Option String) :
    m (Except Failure Unit) := do
  let source ← host.source session.runtime.seed
  let program := (source.program length).1
  match ← saveProgram host session save program with
  | .error failure => return .error failure
  | .ok _ =>
      announce host session randomName (execute host (randomSession session) randomName program)

end Random

/-- Works in the session of some flags. -/
def withSession (host : Host m) (environment : Environment) (directory : String) (flags : Flags)
    (work : Session → m (Except Failure Unit)) : m (Except Failure Unit) := do
  let home ← host.home
  let files ← host.files (flags.consulted home directory)
  match flags.resolve { files, environment, home } directory with
  | .error e => return .error (Failure.ofChain e.chain)
  | .ok session => work session

/-- The exit code of a piece of work, after the report about its failure. -/
def concluded (host : Host m) (work : m (Except Failure Unit)) : m Nat := do
  match ← work with
  | .ok _ => return 0
  | .error failure =>
      host.say failure.report
      return 1

/-- Carries out a request; its exit code. -/
def perform (host : Host m) (environment : Environment) (directory : String) : Request → m Nat
  | .run files flags =>
      concluded host (withSession host environment directory flags fun session =>
        runFiles host session files)
  | .random length save flags =>
      concluded host (withSession host environment directory flags fun session =>
        runRandom host session length save)
  | .completions shell => do
      host.print shell.script
      return 0
  | .help topic => do
      host.print topic.text
      return 0
  | .version topic => do
      host.print (topic.versionLine ++ "\n")
      return 0
  | .usage => do
      host.say (Topic.usage .program)
      return 2

end Command

end ErrorFree
