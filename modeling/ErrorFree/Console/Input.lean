/-!
# Input

The bytes that a program can read, one by one or line by line, on one stream.  When they are used
up, a read finds the end of input, or fails, if the input is one that fails.
-/

namespace ErrorFree

/-- A stream of input bytes. -/
structure Input where
  /-- The bytes not yet read. -/
  rest : List UInt8
  /-- How many bytes were read. -/
  consumed : Nat := 0
  /-- Reading past the last byte fails instead of finding the end. -/
  failing : Bool := false
  /-- Milliseconds that the next attempt to read takes. -/
  delay : Nat := 0
  /-- Nanoseconds that attempts to read have taken so far. -/
  waited : Nat := 0
  deriving DecidableEq

namespace Input

/-- The byte that ends a line. -/
def newline : UInt8 := 10

/-- The byte that may stand in front of the end of a line and then belongs to it. -/
def carriageReturn : UInt8 := 13

/-- An attempt to read: only the first one is held up. -/
def attempt (i : Input) : Input :=
  { i with waited := i.waited + i.delay * 1000000, delay := 0 }

/-- The next byte; nothing at the end of input or after a failure. -/
def readByte (i : Input) : Option UInt8 × Input :=
  let i := i.attempt
  match i.rest with
  | [] => (none, i)
  | byte :: rest => (some byte, { i with rest, consumed := i.consumed + 1 })

/-- The bytes up to and including the next newline, or all of them, and the bytes after that. -/
def splitLine : List UInt8 → List UInt8 × List UInt8
  | [] => ([], [])
  | byte :: rest =>
      if byte = newline then ([byte], rest)
      else (byte :: (splitLine rest).1, (splitLine rest).2)

/-- A line without its end: a newline, and then one carriage return in front of it. -/
def withoutEnd (line : List UInt8) : List UInt8 :=
  if line.getLast? = some newline then
    let line := line.dropLast
    if line.getLast? = some carriageReturn then line.dropLast else line
  else line

/-- The next line without its end; nothing at the end of input.  A failure before the newline loses
what was read of the line. -/
def readLine (i : Input) : Option (List UInt8) × Input :=
  let i := i.attempt
  let (line, rest) := splitLine i.rest
  let after := { i with rest, consumed := i.consumed + line.length }
  if line = [] then (none, after)
  else if i.failing ∧ line.getLast? ≠ some newline then (none, after)
  else (some (withoutEnd line), after)

end Input

end ErrorFree
