import ErrorFree.Binary64.Basic
import ErrorFree.Random.ChaCha

/-!
# Random values

One stream of 32-bit words per seed: the words of block 0, then those of block 1, and so on.  A byte
takes one word, a value between zero and one takes two; no word is left out or used twice.
-/

namespace ErrorFree

/-- A source of random values: a place in the word stream of a key. -/
structure RandomSource where
  key : Vector UInt32 8
  /-- The words of the current block that were not drawn yet. -/
  buffer : List UInt32
  /-- The counter of the next block. -/
  counter : Nat
  deriving DecidableEq

namespace RandomSource

/-- The source of a seed, at the start of its stream. -/
def ofSeed (seed : UInt64) : RandomSource :=
  { key := ChaCha.key seed, buffer := [], counter := 0 }

/-- The next word. -/
def nextWord (s : RandomSource) : UInt32 × RandomSource :=
  match s.buffer with
  | word :: rest => (word, { s with buffer := rest })
  | [] =>
      let block := ChaCha.block s.key s.counter
      (block[0], { s with buffer := block.toList.tail, counter := s.counter + 1 })

/-- The next byte: the low bits of one word. -/
def nextByte (s : RandomSource) : UInt8 × RandomSource :=
  let (word, s) := s.nextWord
  (word.toUInt8, s)

/-- The next value from zero up to, but not including, one: the upper 53 bits of two words, the low
word first, as a fraction. -/
def nextUnit (s : RandomSource) : Binary64 × RandomSource :=
  let (low, s) := s.nextWord
  let (high, s) := s.nextWord
  let bits := (high.toNat * Nat.pow 2 32 + low.toNat) / Nat.pow 2 11
  (Binary64.ofScaled false bits (Binary64.oneExponent - 53), s)

/-- Appends `n` random bytes to a program. -/
def extendProgram : Nat → Array UInt8 → RandomSource → Array UInt8 × RandomSource
  | 0, program, s => (program, s)
  | n + 1, program, s =>
      let (byte, s) := s.nextByte
      extendProgram n (program.push byte) s

/-- A program of `n` random bytes. -/
def program (n : Nat) (s : RandomSource) : Array UInt8 × RandomSource := extendProgram n #[] s

-- What the generator was seen to draw first for two seeds.
example : ((ofSeed 42).program 8).1 = #[0xa2, 0x63, 0x7d, 0x13, 0xd1, 0x71, 0xb2, 0x78] := by
  decide +kernel

example : (ofSeed 0).nextUnit.1 = Binary64.ofBits 0x3fe76547f659a58d := by decide +kernel

end RandomSource

end ErrorFree
