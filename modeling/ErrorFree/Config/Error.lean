import ErrorFree.IoError

/-!
# What can be wrong with a configuration

The causes, and the wording of each.
-/

namespace ErrorFree

/-- A setting that must not be zero. -/
inductive PositiveSetting where
  | stackCapacity
  | heapCapacity
  | maxCycles
  deriving DecidableEq, Repr

/-- The name of a setting in a configuration file. -/
def PositiveSetting.name : PositiveSetting → String
  | .stackCapacity => "runtime.stack_capacity"
  | .heapCapacity => "runtime.heap_capacity"
  | .maxCycles => "runtime.max_cycles"

/-- Why a configuration cannot be loaded. -/
inductive ConfigError where
  /-- The file does not exist. -/
  | notFound (path : String)
  /-- The file exists and cannot be read as text. -/
  | unreadable (reason : IoError)
  /-- The text of the file is no configuration. -/
  | badSyntax (path : String)
  /-- A setting is zero that must not be. -/
  | zero (setting : PositiveSetting)
  /-- A variable of the environment is no number. -/
  | badVariable (name value : String)
  deriving DecidableEq, Repr

namespace ConfigError

/-- The wording of a value that is refused. -/
def invalidValue (name reason : String) : String :=
  "Invalid value for '" ++ name ++ "': " ++ reason

/-- The wording of an error. -/
def message : ConfigError → String
  | .notFound path => "Configuration file not found: " ++ path
  | .unreadable reason => "Failed to read configuration file: " ++ reason.message
  | .badSyntax path => "Invalid TOML syntax in " ++ path
  | .zero setting => invalidValue setting.name "must be greater than zero"
  | .badVariable name value =>
      invalidValue name ("expected a non-negative integer, got '" ++ value ++ "'")

/-- The messages of an error and of what caused it, the outermost first. -/
def chain (e : ConfigError) : List String :=
  match e with
  | .unreadable reason => [e.message, reason.message]
  | _ => [e.message]

end ConfigError

end ErrorFree
