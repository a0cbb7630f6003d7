import ErrorFree.Decimal.Basic

/-!
# Lenient reading of numbers

A line of input is never refused.  Three words are special; otherwise only the digits, a minus in
front of everything else that is kept, and the first point are kept, and what remains is read as a
decimal number.  A line without digits is zero.
-/

namespace ErrorFree

namespace Number

/-- The characters that belong to the number.  `started` says that something was kept before,
`dotted` that a point was. -/
def kept (started dotted : Bool) : List Char → List Char
  | [] => []
  | c :: rest =>
      if c.isDigit then c :: kept true dotted rest
      else if c = '-' ∧ started = false then c :: kept true dotted rest
      else if c = '.' ∧ dotted = false then c :: kept true true rest
      else kept started dotted rest

/-- The value of digits with an optional point among them. -/
def readUnsigned (negative : Bool) (text : List Char) : Binary64 :=
  let whole := text.takeWhile Char.isDigit
  let fraction := (text.dropWhile Char.isDigit).drop 1
  Decimal.toBinary64 negative ⟨Nat.ofDigitChars 10 (whole ++ fraction) 0, -(fraction.length : Int)⟩

/-- The value of what was kept: an optional minus, then digits with an optional point. -/
def readKept : List Char → Binary64
  | '-' :: rest => readUnsigned true rest
  | text => readUnsigned false text

/-- The number in a line of text. -/
def parseChars (text : List Char) : Binary64 :=
  if text = "Infinity".toList then .infinity false
  else if text = "-Infinity".toList then .infinity true
  else if text = "NaN".toList then .nan
  else
    let number := kept false false text
    if number.any Char.isDigit then readKept number else Binary64.zero

/-- The number in a line of text. -/
def parse (text : String) : Binary64 := parseChars text.toList

end Number

end ErrorFree
