import ErrorFree.Toml.Layout

/-!
# Strings of TOML

**Basic strings** stand in double quotes and know escapes; **literal strings** stand in single
quotes and know none.  Both have a form that may span lines, in three quotes, where a line end
right after the opening is dropped and up to two quotes may stand in front of the closing three.

In a basic string that spans lines, a backslash at the end of a line joins it with the next text
that is not blank.
-/

namespace ErrorFree

namespace Toml

/-- The value of a hexadecimal digit. -/
def hexDigit? (c : Char) : Option Nat :=
  if '0' ≤ c ∧ c ≤ '9' then some (c.toNat - '0'.toNat)
  else if 'a' ≤ c ∧ c ≤ 'f' then some (c.toNat - 'a'.toNat + 10)
  else if 'A' ≤ c ∧ c ≤ 'F' then some (c.toNat - 'A'.toNat + 10)
  else none

/-- The value of exactly `n` hexadecimal digits, read after the value `acc`. -/
def hexDigits : Nat → Nat → Reader Nat
  | 0, acc, text => some (acc, text)
  | _ + 1, _, [] => none
  | n + 1, acc, c :: rest => do hexDigits n (16 * acc + (← hexDigit? c)) rest

/-- The character with a code of `n` hexadecimal digits. -/
def coded (n : Nat) : Reader Char := fun text => do
  let (code, rest) ← hexDigits n 0 text
  if code.isValidChar then return (Char.ofNat code, rest) else none

/-- The character that an escape stands for, read after the backslash. -/
def escape : Reader Char
  | 'b' :: rest => some ('\x08', rest)
  | 't' :: rest => some ('\t', rest)
  | 'n' :: rest => some ('\n', rest)
  | 'f' :: rest => some ('\x0c', rest)
  | 'r' :: rest => some ('\r', rest)
  | '"' :: rest => some ('"', rest)
  | '\\' :: rest => some ('\\', rest)
  | 'u' :: rest => coded 4 rest
  | 'U' :: rest => coded 8 rest
  | _ => none

/-- The two kinds of strings. -/
inductive Quoting where
  | basic
  | literal
  deriving DecidableEq

/-- The quote of a kind of strings. -/
def Quoting.mark : Quoting → Char
  | .basic => '"'
  | .literal => '\''

/-- The rest of a string in single marks, up to its closing mark. -/
def lineString (kind : Quoting) : Nat → List Char → Reader (List Char)
  | 0, _, _ => none
  | _ + 1, _, [] => none
  | fuel + 1, acc, c :: rest =>
      if c = kind.mark then some (acc.reverse, rest)
      else if kind = .basic ∧ c = '\\' then do
        let (d, rest) ← escape rest
        lineString kind fuel (d :: acc) rest
      else if isPlain c then lineString kind fuel (c :: acc) rest
      else none

/-- The rest of a string in triple marks, up to its closing marks. -/
def blockString (kind : Quoting) : Nat → List Char → Reader (List Char)
  | 0, _, _ => none
  | _ + 1, _, [] => none
  | fuel + 1, acc, c :: rest =>
      let marks := (rest.takeWhile (· = kind.mark)).length + 1
      if c = kind.mark ∧ 3 ≤ marks then
        let extra := min (marks - 3) 2
        some (acc.reverse ++ List.replicate extra kind.mark, rest.drop (extra + 2))
      else if kind = .basic ∧ c = '\\' then
        match newline? (skipBlanks rest) with
        | some after => blockString kind fuel acc (skipBlankLines after.length after)
        | none => do
            let (d, rest) ← escape rest
            blockString kind fuel (d :: acc) rest
      else
        match newline? (c :: rest) with
        | some after => blockString kind fuel ('\n' :: acc) after
        | none => if isPlain c then blockString kind fuel (c :: acc) rest else none

/-- A string in single marks, read after its opening mark. -/
def shortString (kind : Quoting) : Reader (List Char) := fun text =>
  lineString kind (text.length + 1) [] text

/-- A string of either form, read after its first mark. -/
def anyString (kind : Quoting) : Reader (List Char) := fun text =>
  match expectAll [kind.mark, kind.mark] text with
  | some body =>
      let body := (newline? body).getD body
      blockString kind (body.length + 1) [] body
  | none => shortString kind text

end Toml

end ErrorFree
