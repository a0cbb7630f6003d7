import ErrorFree.Console.Input
import ErrorFree.Console.Output
import ErrorFree.Text.Utf8

/-!
# The console

The input and the output of a program together.  Before every read the output is flushed, so that a
prompt is visible while the program waits; only that flush can fail, a failing input counts as its
end.
-/

namespace ErrorFree

/-- The streams of a program. -/
structure Console where
  input : Input
  output : Output
  deriving DecidableEq

namespace Console

/-- Flushes the output. -/
def flush : Console → Except IoError Unit × Console
  | ⟨input, output⟩ =>
      let (result, output) := output.flush
      (result, ⟨input, output⟩)

/-- Writes bytes. -/
def writeBytes (bytes : List UInt8) : Console → Except IoError Unit × Console
  | ⟨input, output⟩ =>
      let (result, output) := output.write bytes
      (result, ⟨input, output⟩)

/-- Writes one character. -/
def writeChar (c : Char) (console : Console) : Except IoError Unit × Console :=
  console.writeBytes (String.utf8EncodeChar c)

/-- Writes a text, then a line break. -/
def writeLine (text : List Char) (console : Console) : Except IoError Unit × Console :=
  match console.writeBytes (Utf8.encode text) with
  | (.ok _, console) => console.writeBytes [Output.newline]
  | (.error e, console) => (.error e, console)

/-- The next byte of input, nothing at its end. -/
def readByte (console : Console) : Except IoError (Option UInt8) × Console :=
  match console.flush with
  | (.error e, console) => (.error e, console)
  | (.ok _, ⟨input, output⟩) =>
      let (byte, input) := input.readByte
      (.ok byte, ⟨input, output⟩)

/-- The next line of input as text, nothing at its end. -/
def readLine (console : Console) : Except IoError (Option (List Char)) × Console :=
  match console.flush with
  | (.error e, console) => (.error e, console)
  | (.ok _, ⟨input, output⟩) =>
      let (line, input) := input.readLine
      (.ok (line.map Utf8.decodeLossy), ⟨input, output⟩)

end Console

end ErrorFree
