import ErrorFree.IoError

/-!
# Output

Where program output goes.

**Device.**  The device accepts bytes in order, possibly only so many in total; a write that
does not fit is accepted in part and then fails.

**Buffering.**  Bytes are handed to the device at once, or, with `lineBuffered`, collected until a
line is complete, the buffer is full, or the output is flushed.  Bytes that the device refused stay
in the buffer.

**Flushing.**  Every flush is noted with the number of bytes written when it came; the output may be
made so that one of them fails.
-/

namespace ErrorFree

/-- A stream of output bytes. -/
structure Output where
  /-- The bytes that the device has accepted. -/
  written : Array UInt8 := #[]
  /-- How many more bytes the device accepts, if that is limited. -/
  room : Option Nat := none
  /-- Why the device refuses bytes when there is no room. -/
  refusal : IoError := .closed
  /-- Bytes are collected line by line. -/
  lineBuffered : Bool := false
  /-- The bytes collected and not yet accepted. -/
  held : Array UInt8 := #[]
  /-- For each flush so far, the bytes written when it came. -/
  flushes : Array Nat := #[]
  /-- Which flush fails, counted from one. -/
  failingFlush : Option Nat := none
  deriving DecidableEq

namespace Output

/-- How many bytes the line buffer holds. -/
def bufferCapacity : Nat := 1024

/-- The byte that completes a line. -/
def newline : UInt8 := 10

/-- Hands bytes to the device. -/
def send (o : Output) (bytes : List UInt8) : Except IoError Unit × Output :=
  match o.room with
  | none => (.ok (), { o with written := o.written ++ bytes })
  | some room =>
      let o := { o with
        written := o.written ++ bytes.take room
        room := some (room - bytes.length) }
      if bytes.length ≤ room then (.ok (), o) else (.error o.refusal, o)

/-- Hands the collected bytes to the device; those it refuses stay collected. -/
def release (o : Output) : Except IoError Unit × Output :=
  let held := o.held
  let before := o.written.size
  let (result, o) := o.send held.toList
  (result, { o with held := held.extract (o.written.size - before) held.size })

/-- Runs a second action if the first went well. -/
def andThen (first : Except IoError Unit × Output)
    (second : Output → Except IoError Unit × Output) : Except IoError Unit × Output :=
  match first with
  | (.ok _, o) => second o
  | (.error e, o) => (.error e, o)

/-- Collects bytes, making room first if they do not fit; more than a buffer full goes straight to
the device. -/
def hold (o : Output) (bytes : List UInt8) : Except IoError Unit × Output :=
  let spare := bufferCapacity - o.held.size
  let ready := if spare < bytes.length then o.release else (.ok (), o)
  andThen ready fun o =>
    if bufferCapacity ≤ bytes.length then o.send bytes
    else (.ok (), { o with held := o.held ++ bytes })

/-- The bytes up to and including the last newline, and those after it. -/
def splitLastLine (bytes : List UInt8) : List UInt8 × List UInt8 :=
  let tail := (bytes.reverse.takeWhile (· != newline)).reverse
  (bytes.take (bytes.length - tail.length), tail)

/-- Writes through the line buffer. -/
def writeByLine (o : Output) (bytes : List UInt8) : Except IoError Unit × Output :=
  match splitLastLine bytes with
  | ([], tail) =>
      let ready := if o.held.back? = some newline then o.release else (.ok (), o)
      andThen ready fun o => o.hold tail
  | (lines, tail) =>
      let passed :=
        if o.held.isEmpty then o.send lines
        else andThen (o.hold lines) release
      andThen passed fun o => o.hold tail

/-- Writes bytes. -/
def write (o : Output) (bytes : List UInt8) : Except IoError Unit × Output :=
  if o.lineBuffered then o.writeByLine bytes else o.send bytes

/-- Flushes: notes the flush, and hands collected bytes to the device. -/
def flush (o : Output) : Except IoError Unit × Output :=
  let o := { o with flushes := o.flushes.push o.written.size }
  if o.failingFlush = some o.flushes.size then (.error .stuck, o)
  else if o.lineBuffered then o.release
  else (.ok (), o)

end Output

end ErrorFree
