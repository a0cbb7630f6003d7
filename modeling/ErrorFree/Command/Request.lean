import ErrorFree.Command.Arguments

/-!
# Requests

What a whole command line asks for.  The first argument names a command, or asks for help or for the
version; a command line that asks for nothing known is a fault of usage.
-/

namespace ErrorFree

namespace Command

/-- What help can be asked about. -/
inductive Topic where
  | program
  | run
  | random
  | completions
  | help
  deriving DecidableEq, Repr

/-- What a command line asks for. -/
inductive Request where
  /-- Run files one after the other. -/
  | run (files : List String) (flags : Flags)
  /-- Generate a program, save it if asked to, and run it. -/
  | random (length : Nat) (save : Option String) (flags : Flags)
  /-- Print the completion script for a shell. -/
  | completions (shell : Shell)
  | help (topic : Topic)
  | version (topic : Topic)
  /-- The command line makes no sense. -/
  | usage
  deriving DecidableEq, Repr

/-- What the command about files takes. -/
def Form.run : Form := { runs := true, operands := .files }

/-- What the command about random programs takes. -/
def Form.random : Form := { runs := true, saves := true, operands := .length }

/-- What the command about shells takes. -/
def Form.completions : Form := { operands := .shell }

namespace Request

/-- A request from the arguments of a command. -/
def ofArguments (topic : Topic) (make : Arguments → Request) : Except Stop Arguments → Request
  | .ok a => make a
  | .error .usage => .usage
  | .error .help => .help topic
  | .error .version => .version topic

/-- The request to run files. -/
def runFiles (a : Arguments) : Request :=
  if a.operands.isEmpty then .usage else .run a.operands a.flags

/-- The request to run a random program. -/
def runRandom (a : Arguments) : Request :=
  match a.operands with
  | [text] =>
      match Text.unsigned? text.toList with
      | some length => .random length a.save a.flags
      | none => .usage
  | _ => .usage

/-- The request for a completion script. -/
def complete (a : Arguments) : Request :=
  match a.operands with
  | [name] =>
      match Shell.ofName? name with
      | some shell => .completions shell
      | none => .usage
  | _ => .usage

/-- The topic with a name. -/
def topic? : String → Option Topic
  | "run" | "r" => some .run
  | "random" | "rnd" => some .random
  | "completions" => some .completions
  | "help" => some .help
  | _ => none

/-- The request of a command with its arguments. -/
def ofCommand (environment : Environment) (topic : Topic) (arguments : List String) : Request :=
  match topic with
  | .program => .usage
  | .run => ofArguments .run runFiles (Arguments.read Form.run environment arguments)
  | .random => ofArguments .random runRandom (Arguments.read Form.random environment arguments)
  | .completions =>
      ofArguments .completions complete (Arguments.read Form.completions environment arguments)
  | .help =>
      match arguments with
      | [] => .help .program
      | [name] => ((topic? name).map .help).getD .usage
      | _ => .usage

/-- The request of a command line. -/
def parse (environment : Environment) : List String → Request
  | [] => .usage
  | first :: rest =>
      match Token.ofArgument first with
      | .operand name =>
          match topic? name with
          | none => .usage
          | some topic => ofCommand environment topic rest
      | .escape => .usage
      | t => ofArguments .program (fun _ => .usage) (({} : Arguments).token {} t |>.map Prod.fst)

end Request

end Command

end ErrorFree
