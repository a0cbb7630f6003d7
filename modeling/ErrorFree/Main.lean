import ErrorFree.Command.Perform
import Std.Time.DateTime.Timestamp

/-!
# The command line

The commands on the system: files, standard streams, clocks and chance of the process.  A run is
advanced turn by turn; input is fetched when an instruction is about to read it, and output is
passed on when the machine lets go of it.
-/

namespace ErrorFree

namespace Live

open Command

/-- The cause of a failure that the system reports. -/
def reasonOf : IO.Error → IoError
  | .noFileOrDirectory _ _ _ => .notFound
  | .noSuchThing _ _ _ => .notFound
  | .inappropriateType _ code _ => if code = 21 then .isDirectory else .notDirectory
  | .permissionDenied _ _ _ => .permissionDenied
  | .resourceVanished _ _ => .brokenPipe
  | e => .other (toString e)

/-- A path leads to something, whether it can be read or not. -/
def leads (path : String) : IO Bool := do
  try
    discard (IO.FS.realPath path)
    return true
  catch _ => return false

/-- What stands at a path. -/
def look (path : String) : IO Entry := do
  try return .file (← IO.FS.readBinFile path).toList
  catch e =>
    match reasonOf e with
    | .isDirectory => return .directory
    | reason =>
        if ← leads (path ++ "/") then return .directory
        else if ← leads path then return .locked reason
        else return .absent reason

/-- Writes a file. -/
def save (path : String) (content : List UInt8) : IO (Except IoError Unit) := do
  try
    IO.FS.writeBinFile path ⟨content.toArray⟩
    return .ok ()
  catch e => return .error (reasonOf e)

/-- Reads up to the end of a line; whether the input is at its end. -/
partial def fetchLine (input : IO.FS.Stream) (line : Array UInt8) : IO (Array UInt8 × Bool) := do
  let bytes ← input.read 1
  if bytes.isEmpty then return (line, true)
  let line := line ++ bytes.data
  if line.back? = some Input.newline then return (line, false)
  fetchLine input line

/-- The instruction reads input that has not been fetched yet. -/
def wants (settings : RuntimeSettings) (input : Input) : Opcode → Bool
  | .getByte => !settings.autoZero && input.rest.isEmpty
  | .getNumber => !settings.autoZero && !input.rest.contains Input.newline
  | _ => false

/-- Passes on what the machine has let go of. -/
def passOn (output : Output) : IO (Except IoError Unit × Output) := do
  if output.written.isEmpty then return (.ok (), output)
  let stdout ← IO.getStdout
  try
    stdout.write ⟨output.written⟩
    stdout.flush
    return (.ok (), { output with written := #[], flushes := #[] })
  catch e =>
    let reason := reasonOf e
    return (.error reason, { output with
      written := #[], held := output.written ++ output.held, room := some 0, refusal := reason })

/-- A run with its clocks at their present readings. -/
def withClock (r : Run) : IO Run := do
  let now ← Std.Time.Timestamp.now
  let ticks ← IO.monoNanosNow
  let clock : Clock :=
    { seconds := fun _ => now.toSecondsSinceUnixEpoch.val, stopwatch := fun _ => ticks }
  return { r with machine := { r.machine with clock } }

/-- A run with input for the instruction at its cursor. -/
def withInput (settings : RuntimeSettings) (opcode : Opcode) (ended : IO.Ref Bool) (r : Run) :
    IO Run := do
  let console := r.machine.console
  if !wants settings console.input opcode || (← ended.get) then return r
  let (_, output) ← passOn console.output.flush.2
  let (line, atEnd) ← fetchLine (← IO.getStdin) #[]
  ended.set atEnd
  let input := { console.input with rest := console.input.rest ++ line.toList }
  return { r with machine := { r.machine with console := { input, output } } }

/-- Shows the newest report on a terminal. -/
def draw (name : Option String) (r : Run) : IO Run := do
  match name, r.observer with
  | some name, some observer =>
      match observer.reports.back? with
      | none => return r
      | some snapshot =>
          let stderr ← IO.getStderr
          if ← stderr.isTty then
            stderr.putStr ("\r\x1b[2K" ++ snapshot.describe name)
            stderr.flush
          return { r with observer := some { observer with reports := #[] } }
  | _, _ => return r

/-- Advances a run to its end. -/
partial def finish (settings : RuntimeSettings) (name : Option String) (program : Array UInt8)
    (ended : IO.Ref Bool) (r : Run) : IO (Ending × Run) := do
  let opcode := (program[r.cursor]?).map Opcode.decode
  let timed := r.cycles % Observer.checkInterval = 0 ∨ opcode = some .time
  let r ← if timed then withClock r else pure r
  let r ← match opcode with
    | some opcode => if r.atLimit settings then pure r else withInput settings opcode ended r
    | none => pure r
  let (ending, r) := r.turn settings program
  let (passed, output) ← passOn r.machine.console.output
  let console := { r.machine.console with output }
  let r := { r with machine := { r.machine with console } }
  match passed, ending with
  | .error reason, _ => return (.failed reason, r)
  | .ok _, some ending => return (ending, r)
  | .ok _, none => finish settings name program ended (← draw name r)

/-- Runs a program on the standard streams. -/
def run (streams : IO.Ref Console) (ended : IO.Ref Bool) (settings : RuntimeSettings)
    (source : RandomSource) (name : Option String) (program : Array UInt8) :
    IO (Except IoError Stats) := do
  let started ← IO.monoNanosNow
  let machine := Machine.create settings (← streams.get) source { seconds := fun _ => 0 }
  let first := Run.start settings false machine
  let ticks ← IO.monoNanosNow
  let observer := name.map fun _ => ({ lastReport := ticks } : Observer)
  let (ending, r) ← finish settings name program ended { first with observer }
  streams.set r.machine.console
  let stderr ← IO.getStderr
  if name.isSome && (← stderr.isTty) then stderr.putStr "\r\x1b[2K"
  match ending with
  | .failed reason => return .error reason
  | .ended termination =>
      let elapsed := (← IO.monoNanosNow) - started
      return .ok { bytes := program.size, cycles := r.cycles, elapsed, termination }

/-- A seed that cannot be foreseen. -/
def entropy : IO UInt64 := do
  let bytes ← IO.getRandomBytes 8
  return bytes.data.foldl (fun seed byte => seed * 256 + byte.toUInt64) 0

/-- The variables that have a meaning, with their present values. -/
def environment : IO Environment := do
  let names := ["HOME", "EFRT_STACK_CAPACITY", "EFRT_HEAP_CAPACITY", "EFRT_MAX_CYCLES", "EFRT_SEED",
    "EFRT_AUTO_ZERO", "EFRT_NO_PROGRESS", "EFRT_JSON"]
  let values ← names.mapM fun name => do return (name, ← IO.getEnv name)
  return fun name => (values.lookup name).join

/-- The effects of commands, on the system.  Of the home directory it knows what the variables
say. -/
def host (streams : IO.Ref Console) (ended : IO.Ref Bool) : Host IO where
  files paths := do
    let entries ← paths.mapM fun path => do return (path, ← look path)
    return fun path => (entries.lookup path).getD (.absent .notFound)
  save := save
  home := return (← environment).home?
  say line := do (← IO.getStderr).putStrLn line
  print text := do (← IO.getStdout).putStr text
  entropy := entropy
  run := run streams ended

end Live

end ErrorFree

open ErrorFree in
/-- Carries out the command line of the process. -/
def main (arguments : List String) : IO UInt32 := do
  let console : Console := { input := { rest := [] }, output := { lineBuffered := true } }
  let host := Live.host (← IO.mkRef console) (← IO.mkRef false)
  let environment ← Live.environment
  let directory := toString (← IO.currentDir)
  let request := Command.Request.parse environment arguments
  return UInt32.ofNat (← Command.perform host environment directory request)
