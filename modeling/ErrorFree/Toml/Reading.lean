import ErrorFree.Toml.Moment
import ErrorFree.Toml.Numeral
import ErrorFree.Toml.Quoted
import ErrorFree.Toml.Value

/-!
# Keys and values of TOML

**Keys.**  A key is bare (ASCII letters, digits, `_`, `-`) or a quoted string on one line; keys with
points between them form a path.

**Values.**  Strings, booleans, dates and times, numbers, arrays and inline tables.  Arrays may span
lines and hold comments; inline tables may not.

**Bounds.**  A path has fewer than `nestingBound` keys, and arrays and inline tables are nested less
deeply than that.  The bound is also what the recursion on values runs on.
-/

namespace ErrorFree

namespace Toml

/-- Paths and nesting stay below this bound. -/
def nestingBound : Nat := 80

/-- A character of a bare key. -/
def isBareKey (c : Char) : Bool := c.isAlphanum || c = '_' || c = '-'

/-- One key. -/
def key : Reader String
  | '"' :: rest => (shortString .basic rest).map fun (text, rest) => (String.ofList text, rest)
  | '\'' :: rest => (shortString .literal rest).map fun (text, rest) => (String.ofList text, rest)
  | text =>
      match text.takeWhile isBareKey with
      | [] => none
      | name => some (String.ofList name, text.dropWhile isBareKey)

/-- The keys of a path, at most `fuel` of them, with blanks around each. -/
def keys : Nat → Reader (List String)
  | 0, _ => none
  | fuel + 1, text => do
      let (name, rest) ← key (skipBlanks text)
      match skipBlanks rest with
      | '.' :: more => do
          let (names, rest) ← keys fuel more
          return (name :: names, rest)
      | rest => return ([name], rest)

/-- A path of keys. -/
def keyPath : Reader (List String) := keys (nestingBound - 1)

/-- The items of an array, read after its bracket or a comma, at most `fuel` of them. -/
def items (item : Reader Value) : Nat → Reader (List Value)
  | 0, _ => none
  | fuel + 1, text =>
      match skipTrivia text.length text with
      | ']' :: rest => some ([], rest)
      | text => do
          let (value, rest) ← item text
          match skipTrivia rest.length rest with
          | ']' :: rest => return ([value], rest)
          | ',' :: rest => do
              let (values, rest) ← items item fuel rest
              return (value :: values, rest)
          | _ => none

/-- A key path, an equals sign and a value. -/
def assignment (value : Reader Value) : Reader (List String × Value) := fun text => do
  let (path, rest) ← keyPath text
  let rest ← expect '=' rest
  let (v, rest) ← value (skipBlanks rest)
  return ((path, v), rest)

/-- Adds an assignment to the entries of a table. -/
def assignPath (path : List String) (value : Value) (origin : Origin) (entries : Entries) :
    Option Entries :=
  match path.getLast? with
  | none => none
  | some last => assign path.dropLast last value origin entries

/-- The assignments of an inline table, at most `fuel` of them, added to its entries. -/
def inlineEntries (value : Reader Value) : Nat → Entries → Reader Entries
  | 0, _, _ => none
  | fuel + 1, entries, text => do
      let ((path, v), rest) ← assignment value text
      let entries ← assignPath path v .inline entries
      match skipBlanks rest with
      | '\x7d' :: rest => return (entries, rest)
      | ',' :: rest => inlineEntries value fuel entries rest
      | _ => none

/-- An inline table, read after its brace. -/
def inlineTable (value : Reader Value) : Reader Value := fun text =>
  match skipBlanks text with
  | '\x7d' :: rest => some (.table .inline [], rest)
  | text => do
      let (entries, rest) ← inlineEntries value text.length [] text
      return (.table .inline entries, rest)

/-- A date, a time or a number. -/
def scalar : Reader Value := fun text =>
  match moment? text with
  | some rest => some (.moment (text.take (text.length - rest.length)), rest)
  | none => number text

/-- A value in which arrays and inline tables are nested at most `depth` deep. -/
def value : Nat → Reader Value
  | _, '"' :: rest => (anyString .basic rest).map fun (text, rest) => (.string text, rest)
  | _, '\'' :: rest => (anyString .literal rest).map fun (text, rest) => (.string text, rest)
  | _, 't' :: rest => (expectAll "rue".toList rest).map fun rest => (.boolean true, rest)
  | _, 'f' :: rest => (expectAll "alse".toList rest).map fun rest => (.boolean false, rest)
  | depth, '[' :: rest =>
      match depth with
      | 0 => none
      | depth + 1 =>
          (items (value depth) (rest.length + 1) rest).map fun (vs, rest) => (.array vs, rest)
  | depth, '\x7b' :: rest =>
      match depth with
      | 0 => none
      | depth + 1 => inlineTable (value depth) rest
  | _, text => scalar text

end Toml

end ErrorFree
