import ErrorFree.Binary64.Arithmetic
import ErrorFree.Decimal.Layout
import ErrorFree.Decimal.Shortest

/-!
# Statistics of a run

What is told about a finished run: one line of text, or one line of JSON.  In both the elapsed time
is written in milliseconds with the shortest digits that read back; the text never uses an exponent,
the JSON does outside of `10 ^ (-5) … 10 ^ 16` and marks whole numbers with `.0`.
-/

namespace ErrorFree

/-- Why a run ended. -/
inductive Termination where
  /-- The cursor left the program. -/
  | completed
  /-- The cycle limit was reached. -/
  | cycleLimit
  deriving DecidableEq, Repr

/-- The name of an ending in reports for machines. -/
def Termination.name : Termination → String
  | .completed => "completed"
  | .cycleLimit => "cycle_limit"

/-- Summary of one run. -/
structure Stats where
  /-- Length of the program. -/
  bytes : Nat
  /-- Instructions executed. -/
  cycles : Nat
  /-- Elapsed time in nanoseconds. -/
  elapsed : Nat
  termination : Termination
  deriving DecidableEq, Repr

namespace Stats

/-- Elapsed time in milliseconds: the nanoseconds are rounded first, then the quotient. -/
def elapsedMillis (s : Stats) : Binary64 :=
  (Binary64.ofNat s.elapsed).div (Binary64.ofNat 1000000)

/-- Milliseconds in the text: always positional, a tie between two shortest decimals goes up. -/
def millisText (x : Binary64) : String :=
  String.ofList ((Decimal.shortest .up x).positional [])

/-- Milliseconds in JSON: a tie goes to the even digit. -/
def millisJson (x : Binary64) : String :=
  let digits := Decimal.shortest .even x
  String.ofList <|
    if -5 ≤ digits.leadingExponent ∧ digits.leadingExponent ≤ 15 then digits.positional ['.', '0']
    else digits.scientific ⟨'e', 1⟩

/-- The summary as a line of text. -/
def display (s : Stats) : String :=
  "Executed " ++ toString s.bytes ++ " bytes (" ++ toString s.cycles ++ " cycles) in " ++
    millisText s.elapsedMillis ++ " ms" ++
    (if s.termination = .cycleLimit then " (cycle limit reached)" else "")

/-- The summary as a line of JSON. -/
def json (s : Stats) : String :=
  "\x7b\"bytes\":" ++ toString s.bytes ++ ",\"cycles\":" ++ toString s.cycles ++
    ",\"elapsed_ms\":" ++ millisJson s.elapsedMillis ++ ",\"termination\":\"" ++
    s.termination.name ++ "\"\x7d"

end Stats

end ErrorFree
