/-!
# Text from bytes

**Decoding.**  Bytes are taken one at a time.  A lead byte owes up to three continuation bytes, the
first of which may be restricted (no overlong forms, no surrogates, nothing above the last code
point).  A byte that does not fit ends the sequence before it, which is then invalid as a whole, and
is looked at afresh.

**Results.**  `decodeItems` lists characters and invalid sequences in order; `decodeLossy` shows
each invalid sequence as one replacement character; `decode?` accepts valid text only.
-/

namespace ErrorFree

namespace Utf8

/-- A character that is not complete yet. -/
structure Pending where
  /-- Continuation bytes still to come, at least one. -/
  owed : Nat
  /-- Least value of the next one. -/
  low : Nat
  /-- Greatest value of the next one. -/
  high : Nat
  /-- The bits collected so far. -/
  value : Nat
  deriving DecidableEq

/-- What a byte between two characters begins. -/
inductive Lead where
  | char (c : Char)
  | pending (p : Pending)
  | invalid

/-- The beginning of a character. -/
def lead (byte : UInt8) : Lead :=
  let b := byte.toNat
  if b < 0x80 then .char (Char.ofNat b)
  else if b < 0xC2 then .invalid
  else if b < 0xE0 then .pending ⟨1, 0x80, 0xBF, b - 0xC0⟩
  else if b = 0xE0 then .pending ⟨2, 0xA0, 0xBF, 0⟩
  else if b = 0xED then .pending ⟨2, 0x80, 0x9F, b - 0xE0⟩
  else if b < 0xF0 then .pending ⟨2, 0x80, 0xBF, b - 0xE0⟩
  else if b = 0xF0 then .pending ⟨3, 0x90, 0xBF, 0⟩
  else if b < 0xF4 then .pending ⟨3, 0x80, 0xBF, b - 0xF0⟩
  else if b = 0xF4 then .pending ⟨3, 0x80, 0x8F, b - 0xF0⟩
  else .invalid

/-- A byte between two characters: what it completes, and what it leaves pending.  An invalid
sequence is `none`. -/
def beginChar (byte : UInt8) : List (Option Char) × Option Pending :=
  match lead byte with
  | .char c => ([some c], none)
  | .pending p => ([], some p)
  | .invalid => ([none], none)

/-- One byte: what it completes, and what it leaves pending. -/
def step (state : Option Pending) (byte : UInt8) : List (Option Char) × Option Pending :=
  match state with
  | none => beginChar byte
  | some p =>
      if p.low ≤ byte.toNat ∧ byte.toNat ≤ p.high then
        let value := p.value * 64 + (byte.toNat - 0x80)
        if p.owed ≤ 1 then ([some (Char.ofNat value)], none)
        else ([], some ⟨p.owed - 1, 0x80, 0xBF, value⟩)
      else (none :: (beginChar byte).1, (beginChar byte).2)

/-- The characters and invalid sequences of the bytes that follow a state. -/
def decodeFrom : Option Pending → List UInt8 → List (Option Char)
  | none, [] => []
  | some _, [] => [none]
  | state, byte :: rest => (step state byte).1 ++ decodeFrom (step state byte).2 rest

/-- The characters of some bytes, with `none` for each invalid sequence. -/
def decodeItems (bytes : List UInt8) : List (Option Char) := decodeFrom none bytes

/-- The text of some bytes, each invalid sequence shown as the replacement character. -/
def decodeLossy (bytes : List UInt8) : List Char :=
  (decodeItems bytes).map fun item => item.getD '\uFFFD'

/-- The text of some bytes, if all of them are valid. -/
def decode? (bytes : List UInt8) : Option (List Char) :=
  let items := decodeItems bytes
  if items.all Option.isSome then some (items.filterMap id) else none

/-- The bytes of a text. -/
def encode (text : List Char) : List UInt8 := text.flatMap String.utf8EncodeChar

end Utf8

end ErrorFree
