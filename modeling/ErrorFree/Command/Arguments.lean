import ErrorFree.Session
import ErrorFree.Text.Unsigned

/-!
# Arguments of a command

**Spellings.**  `--name`, `--name value`, `--name=value`, `-n`, `-n value`, `-nvalue`,
`-n=value`, and several one-letter flags in one argument; after `--` everything is an operand.
A value that starts with `-` has to be attached with `=`, except `-` alone.

**Order.**  Arguments are looked at from left to right; the first fault, or the first request
for help or for the version, decides.  A flag given twice is a fault, and so is a value that
does not fit.
-/

namespace ErrorFree

namespace Command

/-- Flags without a value. -/
inductive Switch where
  | autoZero
  | noProgress
  | quiet
  | json
  | help
  | version
  deriving DecidableEq, Repr

/-- Flags with a value. -/
inductive Setting where
  | seed
  | stackCapacity
  | heapCapacity
  | maxCycles
  | config
  | save
  deriving DecidableEq, Repr

/-- A flag. -/
inductive Flag where
  | switch (s : Switch)
  | setting (s : Setting)
  deriving DecidableEq, Repr

/-- The flag with a long name. -/
def Flag.ofName? : String → Option Flag
  | "auto-zero" => some (.switch .autoZero)
  | "no-progress" => some (.switch .noProgress)
  | "quiet" => some (.switch .quiet)
  | "json" => some (.switch .json)
  | "help" => some (.switch .help)
  | "version" => some (.switch .version)
  | "seed" => some (.setting .seed)
  | "stack-capacity" => some (.setting .stackCapacity)
  | "heap-capacity" => some (.setting .heapCapacity)
  | "max-cycles" => some (.setting .maxCycles)
  | "config" => some (.setting .config)
  | "save" => some (.setting .save)
  | _ => none

/-- The flag with a one-letter name. -/
def Flag.ofLetter? : Char → Option Flag
  | 'z' => some (.switch .autoZero)
  | 'q' => some (.switch .quiet)
  | 'h' => some (.switch .help)
  | 'V' => some (.switch .version)
  | 'c' => some (.setting .config)
  | 's' => some (.setting .save)
  | _ => none

/-- What the operands of a command are. -/
inductive Operands where
  | none
  | files
  | length
  | shell
  deriving DecidableEq, Repr

/-- What a command takes. -/
structure Form where
  /-- The flags shared by the commands that run programs. -/
  runs : Bool := false
  /-- The flag that saves a program. -/
  saves : Bool := false
  operands : Operands := .none
  deriving DecidableEq, Repr

/-- The command takes the flag. -/
def Form.takes (form : Form) : Flag → Bool
  | .switch .help => true
  | .switch .version => true
  | .setting .save => form.saves
  | _ => form.runs

/-- Shells for which there are completion scripts. -/
inductive Shell where
  | bash
  | elvish
  | fish
  | powershell
  | zsh
  deriving DecidableEq, Repr

/-- The shell with a name. -/
def Shell.ofName? : String → Option Shell
  | "bash" => some .bash
  | "elvish" => some .elvish
  | "fish" => some .fish
  | "powershell" => some .powershell
  | "zsh" => some .zsh
  | _ => none

/-- Why the reading of arguments stops early. -/
inductive Stop where
  | usage
  | help
  | version
  deriving DecidableEq, Repr

/-- What was read so far. -/
structure Arguments where
  flags : Flags := {}
  /-- Where to save a program. -/
  save : Option String := none
  operands : List String := []
  deriving DecidableEq, Repr

/-- A part of the command line. -/
inductive Token where
  /-- `--` -/
  | escape
  /-- `--name` or `--name=value` -/
  | long (name : String) (value : Option String)
  /-- `-letters` -/
  | short (letters : List Char)
  | operand (text : String)
  deriving DecidableEq, Repr

/-- The part that an argument is. -/
def Token.ofArgument (argument : String) : Token :=
  match argument.toList with
  | ['-', '-'] => .escape
  | '-' :: '-' :: rest =>
      let name := String.ofList (rest.takeWhile (· ≠ '='))
      match rest.dropWhile (· ≠ '=') with
      | [] => .long name none
      | _ :: value => .long name (some (String.ofList value))
  | ['-'] => .operand argument
  | '-' :: letters => .short letters
  | _ => .operand argument

/-- A number that a value spells. -/
def number (value : String) : Except Stop Nat :=
  match Text.unsigned? value.toList with
  | some n => .ok n
  | none => .error .usage

/-- A number that is not zero. -/
def positive (value : String) : Except Stop Nat := do
  let n ← number value
  if n = 0 then .error .usage else .ok n

/-- A path, which is not empty. -/
def path (value : String) : Except Stop String :=
  if value = "" then .error .usage else .ok value

/-- Gives a flag its value, unless it has one. -/
def once {α : Type} (old : Option α) (new : Except Stop α) : Except Stop (Option α) :=
  match old with
  | some _ => .error .usage
  | none => new.map some

/-- Switches a flag on, unless it is on. -/
def onceOn (old : Bool) : Except Stop Bool :=
  if old then .error .usage else .ok true

namespace Arguments

/-- Takes a flag without a value. -/
def switchOn (a : Arguments) : Switch → Except Stop Arguments
  | .help => .error .help
  | .version => .error .version
  | .autoZero => do
      return { a with flags := { a.flags with autoZero := ← onceOn a.flags.autoZero } }
  | .noProgress => do
      return { a with flags := { a.flags with noProgress := ← onceOn a.flags.noProgress } }
  | .quiet => do
      return { a with flags := { a.flags with quiet := ← onceOn a.flags.quiet } }
  | .json => do
      return { a with flags := { a.flags with json := ← onceOn a.flags.json } }

/-- Takes a flag with its value. -/
def set (a : Arguments) (setting : Setting) (value : String) : Except Stop Arguments :=
  match setting with
  | .seed => do
      return { a with flags := { a.flags with seed := ← once a.flags.seed (number value) } }
  | .stackCapacity => do
      return { a with flags :=
        { a.flags with stackCapacity := ← once a.flags.stackCapacity (positive value) } }
  | .heapCapacity => do
      return { a with flags :=
        { a.flags with heapCapacity := ← once a.flags.heapCapacity (positive value) } }
  | .maxCycles => do
      return { a with flags :=
        { a.flags with maxCycles := ← once a.flags.maxCycles (positive value) } }
  | .config => do
      return { a with flags := { a.flags with config := ← once a.flags.config (path value) } }
  | .save => do
      return { a with save := ← once a.save (path value) }

/-- The command takes one more operand, and this text is one. -/
def fits (form : Form) (a : Arguments) (text : String) : Bool :=
  match form.operands with
  | .none => false
  | .files => text ≠ ""
  | .length => a.operands.isEmpty && (Text.unsigned? text.toList).isSome
  | .shell => a.operands.isEmpty && (Shell.ofName? text).isSome

/-- Takes an operand. -/
def operand (form : Form) (a : Arguments) (text : String) : Except Stop Arguments :=
  if a.fits form text then .ok { a with operands := a.operands ++ [text] } else .error .usage

/-- Takes the letters of an argument.  If the last one is a flag that still needs its value, it is
given back. -/
def letters (form : Form) : List Char → Arguments → Except Stop (Arguments × Option Setting)
  | [], a => .ok (a, none)
  | c :: rest, a =>
      match (Flag.ofLetter? c).filter form.takes with
      | none => .error .usage
      | some (.switch s) => do letters form rest (← a.switchOn s)
      | some (.setting s) =>
          match rest with
          | [] => .ok (a, some s)
          | '=' :: value => do return (← a.set s (String.ofList value), none)
          | value => do return (← a.set s (String.ofList value), none)

/-- Takes a long flag.  If it still needs its value, it is given back. -/
def long (form : Form) (name : String) (value : Option String) (a : Arguments) :
    Except Stop (Arguments × Option Setting) :=
  match (Flag.ofName? name).filter form.takes, value with
  | none, _ => .error .usage
  | some (.switch _), some _ => .error .usage
  | some (.switch s), none => do return (← a.switchOn s, none)
  | some (.setting s), some value => do return (← a.set s value, none)
  | some (.setting s), none => .ok (a, some s)

/-- Takes one part of the command line other than `--`. -/
def token (form : Form) (a : Arguments) : Token → Except Stop (Arguments × Option Setting)
  | .escape => .error .usage
  | .long name value => a.long form name value
  | .short ls => letters form ls a
  | .operand text => do return (← a.operand form text, none)

/-- Takes the arguments of a command, the first of which may be the value of a pending flag. -/
def readFrom (form : Form) : Option Setting → List String → Arguments → Except Stop Arguments
  | none, [], a => .ok a
  | some _, [], _ => .error .usage
  | none, argument :: rest, a =>
      match Token.ofArgument argument with
      | .escape => rest.foldlM (fun a text => a.operand form text) a
      | t => do
          let (a, pending) ← a.token form t
          readFrom form pending rest a
  | some s, argument :: rest, a =>
      match Token.ofArgument argument with
      | .operand value => do readFrom form none rest (← a.set s value)
      | _ => .error .usage

/-- Lets the environment ask for JSON, if no flag did. -/
def withJson (raw : Option String) (a : Arguments) : Except Stop Arguments :=
  if a.flags.json then .ok a
  else
    match raw with
    | none => .ok a
    | some "true" => .ok { a with flags := { a.flags with json := true } }
    | some "false" => .ok a
    | some _ => .error .usage

/-- The arguments of a command. -/
def read (form : Form) (environment : Environment) (arguments : List String) :
    Except Stop Arguments := do
  let a ← readFrom form none arguments {}
  if form.runs then a.withJson (environment "EFRT_JSON") else .ok a

end Arguments

end Command

end ErrorFree
