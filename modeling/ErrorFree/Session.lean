import ErrorFree.Config.Load

/-!
# Sessions

What one invocation of the command line works with: the loaded configuration with the flags of the
command line on top.
-/

namespace ErrorFree

/-- The flags shared by all commands that run a program. -/
structure Flags where
  autoZero : Bool := false
  seed : Option Nat := none
  stackCapacity : Option Nat := none
  heapCapacity : Option Nat := none
  maxCycles : Option Nat := none
  /-- The project file to use. -/
  config : Option String := none
  noProgress : Bool := false
  quiet : Bool := false
  json : Bool := false
  deriving DecidableEq, Repr

/-- Everything a command has to know before it runs programs. -/
structure Session where
  runtime : RuntimeSettings := {}
  display : DisplaySettings := {}
  quiet : Bool := false
  json : Bool := false
  deriving DecidableEq, Repr

namespace Session

/-- Status lines are shown. -/
def verbose (s : Session) : Bool := !s.quiet

/-- A summary is shown after each run. -/
def showsSummary (s : Session) : Bool := !s.quiet && s.display.summary

/-- Progress is shown. -/
def showsProgress (s : Session) : Bool := !s.quiet && s.display.progress

end Session

/-- Why there is no session: what was being loaded, and what was wrong with it. -/
structure SessionError where
  /-- The file that a flag asked for. -/
  config : Option String
  cause : ConfigError
  deriving DecidableEq, Repr

/-- The messages of an error and of what caused it, the outermost first. -/
def SessionError.chain (e : SessionError) : List String :=
  let context := match e.config with
    | some path => "Failed to load config file: " ++ path
    | none => "Failed to load configuration"
  context :: e.cause.chain

namespace Flags

/-- A configuration with the flags on top. -/
def apply (flags : Flags) (config : Config) : Session :=
  { runtime :=
      { stackCapacity := flags.stackCapacity.getD config.runtime.stackCapacity
        heapCapacity := flags.heapCapacity.getD config.runtime.heapCapacity
        maxCycles := flags.maxCycles.or config.runtime.maxCycles
        seed := flags.seed.or config.runtime.seed
        autoZero := flags.autoZero || config.runtime.autoZero }
    display := { config.display with progress := !flags.noProgress && config.display.progress }
    quiet := flags.quiet
    json := flags.json }

/-- The session of some flags in a working directory. -/
def resolve (flags : Flags) (here : Surroundings) (directory : String) :
    Except SessionError Session :=
  let loaded := match flags.config with
    | some path => Loader.fromFile {} here path
    | none => Loader.fromDirectory {} here directory
  match loaded.1 with
  | .ok config => .ok (flags.apply config)
  | .error cause => .error { config := flags.config, cause }

/-- The paths that are looked at to find the session of some flags. -/
def consulted (flags : Flags) (home : Option String) (directory : String) : List String :=
  let projectFiles := match flags.config with
    | some path => [path]
    | none => (Path.ancestors directory).map fun ancestor => Path.join ancestor projectFileName
  projectFiles ++ (home.map globalFileIn).toList

end Flags

end ErrorFree
