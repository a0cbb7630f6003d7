/-!
# Blanks, line ends and comments of TOML

Readers take a list of characters and give what they read together with the rest, or nothing.

A line ends with a newline, which a carriage return may precede.  A comment holds no control
characters except tabs.
-/

namespace ErrorFree

namespace Toml

/-- A reader of a part of a text. -/
abbrev Reader (α : Type) := List Char → Option (α × List Char)

/-- A blank within a line. -/
def isBlank (c : Char) : Bool := c = ' ' || c = '\t'

/-- A character that may stand in a comment. -/
def isPlain (c : Char) : Bool := c = '\t' || (0x20 ≤ c.toNat && c.toNat ≠ 0x7F)

/-- The text after blanks. -/
def skipBlanks (text : List Char) : List Char := text.dropWhile isBlank

/-- The text after one line end. -/
def newline? : List Char → Option (List Char)
  | '\n' :: rest => some rest
  | '\r' :: '\n' :: rest => some rest
  | _ => none

/-- The text after a comment, if there is one. -/
def skipComment : List Char → List Char
  | '#' :: rest => rest.dropWhile isPlain
  | text => text

/-- The text after the end of a statement: blanks, a comment, and a line end or the end of all. -/
def lineEnd? (text : List Char) : Option (List Char) :=
  match skipComment (skipBlanks text) with
  | [] => some []
  | rest => newline? rest

/-- The text after a given character. -/
def expect (c : Char) : List Char → Option (List Char)
  | d :: rest => if d = c then some rest else none
  | [] => none

/-- The text after a given word. -/
def expectAll : List Char → List Char → Option (List Char)
  | [], text => some text
  | c :: word, text => (expect c text).bind (expectAll word)

/-- The text after blanks and line ends, of which there are at most `fuel`. -/
def skipBlankLines : Nat → List Char → List Char
  | 0, text => text
  | fuel + 1, text =>
      match newline? (skipBlanks text) with
      | some rest => skipBlankLines fuel rest
      | none => skipBlanks text

/-- The text after blanks, comments and line ends, of which there are at most `fuel`. -/
def skipTrivia : Nat → List Char → List Char
  | 0, text => text
  | fuel + 1, text =>
      match newline? (skipComment (skipBlanks text)) with
      | some rest => skipTrivia fuel rest
      | none => skipBlanks text

end Toml

end ErrorFree
