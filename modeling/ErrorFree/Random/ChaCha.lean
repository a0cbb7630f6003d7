/-!
# The block function of the random stream

**Block.**  Sixteen words: four constants, the eight words of the key, a block counter of 64 bits
(low word first) and two zero words.  Six double rounds stir them; the start is added at the end.

**Key.**  The key of a seed is eight words of a small generator of 64 bits of state that steps by a
multiplication and an addition and puts out a rotated mixture of its bits.
-/

namespace ErrorFree

namespace ChaCha

/-- The sixteen words of a block. -/
abbrev Block := Vector UInt32 16

/-- Left rotation, for distances from 1 to 31. -/
def rotateLeft (x : UInt32) (n : UInt32) : UInt32 := (x <<< n) ||| (x >>> (32 - n))

/-- Stirs four words. -/
def quarterRound (s : Block) (a b c d : Fin 16) : Block :=
  let wa := s[a] + s[b]
  let wd := rotateLeft (s[d] ^^^ wa) 16
  let wc := s[c] + wd
  let wb := rotateLeft (s[b] ^^^ wc) 12
  let wa := wa + wb
  let wd := rotateLeft (wd ^^^ wa) 8
  let wc := wc + wd
  let wb := rotateLeft (wb ^^^ wc) 7
  (((s.set a wa).set b wb).set c wc).set d wd

/-- Stirs the columns, then the diagonals. -/
def doubleRound (s : Block) : Block :=
  let s := quarterRound s 0 4 8 12
  let s := quarterRound s 1 5 9 13
  let s := quarterRound s 2 6 10 14
  let s := quarterRound s 3 7 11 15
  let s := quarterRound s 0 5 10 15
  let s := quarterRound s 1 6 11 12
  let s := quarterRound s 2 7 8 13
  quarterRound s 3 4 9 14

/-- The words before stirring. -/
def start (key : Vector UInt32 8) (counter : Nat) : Block :=
  #v[0x61707865, 0x3320646e, 0x79622d32, 0x6b206574,
    key[0], key[1], key[2], key[3], key[4], key[5], key[6], key[7],
    UInt32.ofNat counter, UInt32.ofNat (counter / Nat.pow 2 32), 0, 0]

/-- The words of the block with the given counter. -/
def block (key : Vector UInt32 8) (counter : Nat) : Block :=
  let s := start key counter
  let stirred := Nat.repeat doubleRound 6 s
  stirred.zipWith (· + ·) s

-- The words that are published for the key of zeros, with twelve rounds and 256 bits of key.
example : block (Vector.replicate 8 0) 0 =
    #v[0x6a9af49b, 0x53f95507, 0x12ce1f81, 0xd583265f, 0xbbc32904, 0x1474e049, 0xa589007e,
      0x5f15ae2e, 0x79f86405, 0xc0e37ad2, 0x3428e82c, 0x798cfaac, 0x2c9f623a, 0x1969dea0,
      0x2fe80b61, 0xbe261341] := by
  decide +kernel

section Seeding

/-- The next state of the generator that makes keys. -/
def advance (state : UInt64) : UInt64 := state * 0x5851F42D4C957F2D + 0xA17654E46FBE17F3

/-- The word that a state puts out: a mixture of its bits rotated to the right by its top bits. -/
def keyWord (state : UInt64) : UInt32 :=
  let x := (((state >>> 18) ^^^ state) >>> 27).toUInt32
  let n := (state >>> 59).toUInt32
  if n = 0 then x else (x >>> n) ||| (x <<< (32 - n))

/-- The key of a seed. -/
def key (seed : UInt64) : Vector UInt32 8 :=
  Vector.ofFn fun i => keyWord (Nat.repeat advance (i.val + 1) seed)

end Seeding

end ChaCha

end ErrorFree
