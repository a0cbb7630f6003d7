import ErrorFree.Toml.Layout

/-!
# Dates and times of TOML

A date `YYYY-MM-DD`, a time `HH:MM:SS` with an optional fraction, or both with `T`, `t` or a blank
between them; both together may have an offset, `Z`, `z` or `±HH:MM`.  Every field has to be in its
range, a leap second included.
-/

namespace ErrorFree

namespace Toml

/-- The value of exactly `n` digits, read after the value `acc`. -/
def fixedDigits : Nat → Nat → Reader Nat
  | 0, acc, text => some (acc, text)
  | _ + 1, _, [] => none
  | n + 1, acc, c :: rest =>
      if c.isDigit then fixedDigits n (10 * acc + (c.toNat - '0'.toNat)) rest else none

/-- A field of two digits with its range. -/
def twoDigits (low high : Nat) : Reader Nat := fun text => do
  let (n, rest) ← fixedDigits 2 0 text
  if low ≤ n ∧ n ≤ high then return (n, rest) else none

/-- The number of days of a month. -/
def daysOfMonth (year month : Nat) : Nat :=
  match month with
  | 2 => if year % 4 = 0 ∧ (year % 100 ≠ 0 ∨ year % 400 = 0) then 29 else 28
  | 4 | 6 | 9 | 11 => 30
  | _ => 31

/-- The text after a date. -/
def date? (text : List Char) : Option (List Char) := do
  let (year, text) ← fixedDigits 4 0 text
  let text ← expect '-' text
  let (month, text) ← twoDigits 1 12 text
  let text ← expect '-' text
  let (_, text) ← twoDigits 1 (daysOfMonth year month) text
  return text

/-- The text after a fraction of a second, if there is one. -/
def skipFraction : List Char → List Char
  | '.' :: c :: rest => if c.isDigit then rest.dropWhile Char.isDigit else '.' :: c :: rest
  | text => text

/-- The text after a time. -/
def time? (text : List Char) : Option (List Char) := do
  let (_, text) ← twoDigits 0 23 text
  let text ← expect ':' text
  let (_, text) ← twoDigits 0 59 text
  let text ← expect ':' text
  let (_, text) ← twoDigits 0 60 text
  return skipFraction text

/-- The text after an offset from universal time. -/
def offset? : List Char → Option (List Char)
  | 'Z' :: rest => some rest
  | 'z' :: rest => some rest
  | c :: rest =>
      if c = '+' ∨ c = '-' then do
        let (_, rest) ← twoDigits 0 23 rest
        let rest ← expect ':' rest
        let (_, rest) ← twoDigits 0 59 rest
        return rest
      else none
  | [] => none

/-- The text after the time that belongs to a date, if there is one. -/
def skipTime : List Char → List Char
  | c :: rest =>
      if c = 'T' ∨ c = 't' ∨ c = ' ' then
        match time? rest with
        | some rest => (offset? rest).getD rest
        | none => c :: rest
      else c :: rest
  | [] => []

/-- The text after a date, a time, or both. -/
def moment? (text : List Char) : Option (List Char) :=
  match date? text with
  | some rest => some (skipTime rest)
  | none => time? text

end Toml

end ErrorFree
