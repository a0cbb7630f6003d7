/-!
# Failures of commands

A failure has a message and the messages of what caused it, the nearest cause first.  It is told in
one line, or as a report with a line for each cause.
-/

namespace ErrorFree

namespace Command

/-- Why a command failed. -/
structure Failure where
  message : String
  causes : List String := []
  deriving DecidableEq, Repr

namespace Failure

/-- The failure of a chain of messages, the outermost first. -/
def ofChain : List String → Failure
  | [] => { message := "" }
  | message :: causes => { message, causes }

/-- The failure in one line. -/
def line (f : Failure) : String := ": ".intercalate (f.message :: f.causes)

/-- A text behind a margin: the first line behind `first`, the others behind `other`. -/
def indent (first other text : String) : String :=
  first ++ ("\n" ++ other).intercalate (text.splitOn "\n")

/-- The number of a cause, right-aligned, in front of it. -/
def numberMargin (n : Nat) : String :=
  let digits := toString n
  String.ofList (List.replicate (5 - digits.length) ' ') ++ digits ++ ": "

/-- The causes, each on a line of its own, numbered from `n`. -/
def numbered : Nat → List String → List String
  | _, [] => []
  | n, cause :: rest => indent (numberMargin n) "       " cause :: numbered (n + 1) rest

/-- The lines about the causes; a single one has no number. -/
def causeLines : List String → List String
  | [cause] => [indent "    " "    " cause]
  | causes => numbered 0 causes

/-- The failure as a report. -/
def report (f : Failure) : String :=
  let causes := match f.causes with
    | [] => ""
    | causes => "\n\nCaused by:" ++ String.join ((causeLines causes).map ("\n" ++ ·))
  "Error: " ++ f.message ++ causes

end Failure

end Command

end ErrorFree
