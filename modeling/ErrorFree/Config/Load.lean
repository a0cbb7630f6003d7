import ErrorFree.Config.Environment
import ErrorFree.Config.Schema
import ErrorFree.Files.Path

/-!
# Loading a configuration

**Layers**, the lowest first: the defaults, the file in the home directory, the project file, the
variables of the environment.

**Project file.**  Either a given file, or the nearest `efrt.toml` that is a regular file, from a
directory upwards.

**Faults** are reported in this order: the project file's own, those of the file in the home
directory (which need not exist), those of the variables, a zero in the merged layers.
-/

namespace ErrorFree

/-- What can be seen from here: files by path, variables, and the home directory.  Where that is,
only the system knows; the variables are asked where it does not say. -/
structure Surroundings where
  files : String → Entry
  environment : Environment
  /-- The home directory, if there is one. -/
  home : Option String := environment.home?

/-- A loaded configuration. -/
structure Config where
  runtime : RuntimeSettings := {}
  display : DisplaySettings := {}
  /-- The project file that had a say. -/
  projectFile : Option String := none
  deriving DecidableEq, Repr

/-- Name of the project file. -/
def projectFileName : String := "efrt.toml"

/-- The path of the configuration file in a home directory. -/
def globalFileIn (home : String) : String := Path.join (Path.join home ".efrt") "config.toml"

/-- The path of the configuration file in the home directory, if there is one. -/
def Surroundings.globalPath? (here : Surroundings) : Option String := here.home.map globalFileIn

/-- Loads configurations.  Where the file in the home directory is, is found out once. -/
structure Loader where
  globalPath : Option String := none
  deriving DecidableEq, Repr

/-- The nearest project file, from a directory upwards. -/
def findProjectFile (files : String → Entry) (directory : String) : Option String :=
  ((Path.ancestors directory).map fun ancestor => Path.join ancestor projectFileName).find?
    fun candidate => (files candidate).isFile

/-- The file in the home directory, empty if there is none. -/
def loadGlobal (files : String → Entry) (globalPath : Option String) :
    Except ConfigError ConfigFile :=
  match globalPath with
  | none => .ok {}
  | some path => if (files path).isPresent then ConfigFile.load path (files path) else .ok {}

/-- Lays the layers over each other. -/
def layers (here : Surroundings) (globalPath : Option String) (project : ConfigFile)
    (projectFile : Option String) : Except ConfigError Config := do
  let global ← loadGlobal here.files globalPath
  let overrides ← here.environment.overrides
  let merged := (global.merge project).merge overrides
  merged.validate
  return {
    runtime := merged.runtimeSettings
    display := merged.displaySettings
    projectFile }

namespace Loader

/-- Puts the layers together under a project file that was read. -/
def assemble (l : Loader) (here : Surroundings) (project : ConfigFile)
    (projectFile : Option String) : Except ConfigError Config × Loader :=
  let globalPath := l.globalPath.or here.globalPath?
  (layers here globalPath project projectFile, { globalPath })

/-- Loads a configuration with a given project file. -/
def fromFile (l : Loader) (here : Surroundings) (path : String) :
    Except ConfigError Config × Loader :=
  match ConfigFile.load path (here.files path) with
  | .error e => (.error e, l)
  | .ok project => l.assemble here project (some path)

/-- Loads a configuration with the project file that is nearest to a directory. -/
def fromDirectory (l : Loader) (here : Surroundings) (directory : String) :
    Except ConfigError Config × Loader :=
  match findProjectFile here.files directory with
  | none => l.assemble here {} none
  | some path => l.fromFile here path

end Loader

end ErrorFree
