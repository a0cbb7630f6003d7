import ErrorFree.Binary64.Arithmetic
import ErrorFree.Decimal.Layout
import ErrorFree.Decimal.Shortest

/-!
# Numbers as the language writes them

**Format.**  The shortest digits that read back.  Zero and magnitudes from `0.0001` up to, but not
including, `10 ^ 15` are written positionally; all others with an exponent of at least two digits
and a sign: `1.5E-05`, `1E+20`.  A negative zero keeps its sign, the infinities and not-a-number are
words.
-/

namespace ErrorFree

namespace Number

/-- The least magnitude that is written positionally. -/
def positionalFrom : Binary64 := Decimal.toBinary64 false ⟨1, -4⟩

/-- The least magnitude above the positional ones. -/
def positionalBelow : Binary64 := Decimal.toBinary64 false ⟨1, 15⟩

/-- Exponents have an upper case mark and two digits or more. -/
def exponentStyle : Decimal.ExponentStyle := ⟨'E', 2⟩

/-- A finite number is written positionally. -/
def isPositional (x : Binary64) : Bool :=
  x.numerator == 0 || positionalFrom.lessEq x.abs && x.abs.less positionalBelow

/-- The text of a number, as characters. -/
def toChars (x : Binary64) : List Char :=
  match x with
  | .nan => "NaN".toList
  | .infinity s => if s then "-Infinity".toList else "Infinity".toList
  | .finite s _ _ _ =>
      let digits := Decimal.shortest .up x
      (if s then ['-'] else []) ++
        if isPositional x then digits.positional [] else digits.scientific exponentStyle

/-- The text of a number. -/
def format (x : Binary64) : String := String.ofList (toChars x)

end Number

end ErrorFree
