import ErrorFree.Session

/-!
# Layers of a configuration

**Fields.**  A `ConfigField` is a field of a configuration file together with its two laws: the empty
file does not give it, and a file laid over another one has the first say.  `ofRuntime` and
`ofDisplay` derive both laws for a file from those of a section, whether the section is there or not.

**Variables.**  `Environment.layer` is what the variables say, `Environment.given` what one of them
says as a number; `Environment.flag_eq` says it of a flag, by its text.

**Loading.**  Both ways to load a configuration, with a given project file and with the nearest one,
are `Surroundings.loaded`; `loaded_eq_ok` takes a configuration that was loaded apart into its
layers.
-/

namespace ErrorFree

section Except

variable {ε α β : Type} {x : Except ε α} {f : α → Except ε β}

theorem bind_eq_ok {b : β} (h : x.bind f = .ok b) : ∃ a, x = .ok a ∧ f a = .ok b := by
  cases x with
  | error e => cases h
  | ok a => exact ⟨a, rfl, h⟩

end Except

section Fields

/-- The first value that is given. -/
def firstGiven {α : Type} (values : List (Option α)) : Option α := values.findSome? id

@[simp] theorem firstGiven_nil {α : Type} : firstGiven ([] : List (Option α)) = none := rfl

/-- A field of a configuration file: what a file says there, if it says anything. -/
structure ConfigField (α : Type) where
  get : ConfigFile → Option α
  get_empty : get {} = none
  get_merge : ∀ lower upper : ConfigFile, get (lower.merge upper) = (get upper).or (get lower)

namespace ConfigField

/-- A field of the section about the machine. -/
def ofRuntime {α : Type} (field : RuntimeSection → Option α) (hempty : field {} = none)
    (hmerge : ∀ lower upper : RuntimeSection,
      field (lower.merge upper) = (field upper).or (field lower)) : ConfigField α where
  get f := f.runtime.bind field
  get_empty := rfl
  get_merge := by
    rintro ⟨_ | lower, _⟩ ⟨_ | upper, _⟩
    · rfl
    · simp [ConfigFile.merge, hmerge, hempty]
    · rfl
    · simp [ConfigFile.merge, hmerge]

/-- A field of the section about what is told. -/
def ofDisplay {α : Type} (field : DisplaySection → Option α) (hempty : field {} = none)
    (hmerge : ∀ lower upper : DisplaySection,
      field (lower.merge upper) = (field upper).or (field lower)) : ConfigField α where
  get f := f.display.bind field
  get_empty := rfl
  get_merge := by
    rintro ⟨_, _ | lower⟩ ⟨_, _ | upper⟩
    · rfl
    · simp [ConfigFile.merge, hmerge, hempty]
    · rfl
    · simp [ConfigFile.merge, hmerge]

def stackCapacity : ConfigField Nat := ofRuntime (·.stackCapacity) rfl fun _ _ => rfl
def heapCapacity : ConfigField Nat := ofRuntime (·.heapCapacity) rfl fun _ _ => rfl
def maxCycles : ConfigField Nat := ofRuntime (·.maxCycles) rfl fun _ _ => rfl
def seed : ConfigField Nat := ofRuntime (·.seed) rfl fun _ _ => rfl
def autoZero : ConfigField Bool := ofRuntime (·.autoZero) rfl fun _ _ => rfl
def progress : ConfigField Bool := ofDisplay (·.progress) rfl fun _ _ => rfl
def summary : ConfigField Bool := ofDisplay (·.summary) rfl fun _ _ => rfl

end ConfigField

namespace ConfigFile

theorem runtimeSettings_eq (f : ConfigFile) :
    f.runtimeSettings =
      { stackCapacity := (ConfigField.stackCapacity.get f).getD Stack.defaultCapacity
        heapCapacity := (ConfigField.heapCapacity.get f).getD Heap.defaultCapacity
        maxCycles := ConfigField.maxCycles.get f
        seed := ConfigField.seed.get f
        autoZero := (ConfigField.autoZero.get f).getD false } := by
  obtain ⟨_ | runtime, _⟩ := f
  · rfl
  · simp [runtimeSettings, ConfigField.stackCapacity, ConfigField.heapCapacity,
      ConfigField.maxCycles, ConfigField.seed, ConfigField.autoZero, ConfigField.ofRuntime]

theorem displaySettings_eq (f : ConfigFile) :
    f.displaySettings =
      { progress := (ConfigField.progress.get f).getD true
        summary := (ConfigField.summary.get f).getD true } := by
  obtain ⟨_, _ | display⟩ := f <;> rfl

end ConfigFile

end Fields

section Variables

namespace Environment

variable (env : Environment)

/-- The number in a variable, if it is set and holds one. -/
def given (name : String) : Option Nat :=
  (env name).bind fun raw => Text.unsigned? (Text.trimWhite raw.toList)

/-- What the variables say, those that should hold a number and do not being passed over. -/
def layer : ConfigFile where
  runtime := some
    { stackCapacity := env.given "EFRT_STACK_CAPACITY"
      heapCapacity := env.given "EFRT_HEAP_CAPACITY"
      maxCycles := env.given "EFRT_MAX_CYCLES"
      seed := env.given "EFRT_SEED"
      autoZero := env.flag "EFRT_AUTO_ZERO" }
  display := some { progress := (env.flag "EFRT_NO_PROGRESS").map not }

variable {env}

theorem given_of_number {name : String} {value : Option Nat} (h : env.number name = .ok value) :
    env.given name = value := by
  unfold number at h
  unfold given
  cases hraw : env name with
  | none =>
      rw [hraw] at h
      exact Except.ok.inj h
  | some raw =>
      simp only [hraw] at h
      cases hvalue : Text.unsigned? (Text.trimWhite raw.toList) with
      | none => simp [hvalue] at h
      | some n =>
          simp only [hvalue] at h
          simpa [hvalue] using Except.ok.inj h

theorem layer_of_overrides {file : ConfigFile} (h : env.overrides = .ok file) :
    file = env.layer := by
  obtain ⟨stackCapacity, hstack, h⟩ := bind_eq_ok h
  obtain ⟨heapCapacity, hheap, h⟩ := bind_eq_ok h
  obtain ⟨maxCycles, hcycles, h⟩ := bind_eq_ok h
  obtain ⟨seed, hseed, h⟩ := bind_eq_ok h
  obtain rfl := Except.ok.inj h
  simp only [layer, given_of_number hstack, given_of_number hheap, given_of_number hcycles,
    given_of_number hseed]

end Environment

end Variables

section Loading

namespace Surroundings

/-- What the file at a path says; nothing is said without a path. -/
def read (here : Surroundings) : Option String → Except ConfigError ConfigFile
  | none => .ok {}
  | some path => ConfigFile.load path (here.files path)

/-- The path, if something stands there. -/
def present (here : Surroundings) (path : Option String) : Option String :=
  path.filter fun path => (here.files path).isPresent

theorem globalPath?_of_home {here here' : Surroundings} (h : here'.home = here.home) :
    here'.globalPath? = here.globalPath? := by
  rw [globalPath?, h, globalPath?]

/-- The configuration of a project file over the file in the home directory. -/
def loaded (here : Surroundings) (globalPath projectPath : Option String) :
    Except ConfigError Config :=
  (here.read projectPath).bind fun project => layers here globalPath project projectPath

/-- The three layers of files and variables laid over each other. -/
def merged (here : Surroundings) (project global : ConfigFile) : ConfigFile :=
  (global.merge project).merge here.environment.layer

theorem loadGlobal_eq (here : Surroundings) (globalPath : Option String) :
    loadGlobal here.files globalPath = here.read (here.present globalPath) := by
  cases globalPath with
  | none => rfl
  | some path =>
      cases hpath : (here.files path).isPresent <;>
        simp [loadGlobal, present, Option.filter, read, hpath]

variable {here : Surroundings} {globalPath projectPath : Option String} {config : Config}

theorem loaded_eq_ok (h : here.loaded globalPath projectPath = .ok config) :
    ∃ project global, here.read projectPath = .ok project ∧
      here.read (here.present globalPath) = .ok global ∧
      (here.merged project global).validate = .ok () ∧
      config =
        { runtime := (here.merged project global).runtimeSettings
          display := (here.merged project global).displaySettings
          projectFile := projectPath } := by
  obtain ⟨project, hproject, h⟩ := bind_eq_ok h
  obtain ⟨global, hglobal, h⟩ := bind_eq_ok h
  obtain ⟨overrides, hoverrides, h⟩ := bind_eq_ok h
  obtain ⟨_, hvalid, h⟩ := bind_eq_ok h
  obtain rfl := Environment.layer_of_overrides hoverrides
  rw [loadGlobal_eq] at hglobal
  exact ⟨project, global, hproject, hglobal, hvalid, (Except.ok.inj h).symm⟩

end Surroundings

namespace Loader

variable (l : Loader) (here : Surroundings)

theorem fromFile_eq (path : String) :
    (l.fromFile here path).1 =
      here.loaded (l.globalPath.or here.globalPath?) (some path) := by
  simp only [fromFile, Surroundings.loaded, Surroundings.read]
  cases ConfigFile.load path (here.files path) <;> rfl

theorem fromDirectory_eq (directory : String) :
    (l.fromDirectory here directory).1 =
      here.loaded (l.globalPath.or here.globalPath?)
        (findProjectFile here.files directory) := by
  unfold fromDirectory
  cases findProjectFile here.files directory with
  | none => rfl
  | some path => exact l.fromFile_eq here path

end Loader

namespace Flags

/-- The project file that some flags lead to: the one that they name, or else the nearest. -/
def projectPath (flags : Flags) (here : Surroundings) (directory : String) : Option String :=
  flags.config.or (findProjectFile here.files directory)

/-- The session of some flags from the configuration under them. -/
theorem resolve_eq (flags : Flags) (here : Surroundings) (directory : String) :
    flags.resolve here directory =
      ((here.loaded here.globalPath? (flags.projectPath here directory)).map
        flags.apply).mapError fun cause => { config := flags.config, cause } := by
  unfold resolve projectPath
  cases flags.config with
  | none =>
      simp only [Loader.fromDirectory_eq, Option.none_or]
      cases here.loaded here.globalPath? (findProjectFile here.files directory) <;> rfl
  | some path =>
      simp only [Loader.fromFile_eq, Option.none_or, Option.some_or]
      cases here.loaded here.globalPath? (some path) <;> rfl

theorem resolve_eq_ok_iff {flags : Flags} {here : Surroundings} {directory : String}
    {session : Session} :
    flags.resolve here directory = .ok session ↔
      ∃ config, here.loaded here.globalPath? (flags.projectPath here directory) =
        .ok config ∧ flags.apply config = session := by
  rw [resolve_eq]
  cases here.loaded here.globalPath? (flags.projectPath here directory) with
  | error cause =>
      constructor
      · intro h
        cases h
      · rintro ⟨config, h, -⟩
        cases h
  | ok config =>
      constructor
      · intro h
        exact ⟨config, rfl, Except.ok.inj h⟩
      · rintro ⟨found, h, rfl⟩
        cases h
        rfl

end Flags

end Loading

end ErrorFree
