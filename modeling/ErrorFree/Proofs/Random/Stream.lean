import ErrorFree.Proofs.Binary64.Value
import ErrorFree.Random.Source
import Mathlib.Data.List.Induction

/-!
# Random values and the word stream

**Stream.**  `ChaCha.word` is the stream of a key: word `k` is word `k % 16` of block `k / 16`.

**Place.**  `RandomSource.past` is the source of a key that has given the first `k` words, whether
`k` lies within a block or at the end of one.  The next word is word `k`, and it leads to `k + 1`
(`nextWord_past`); so every draw leads on by the words it takes (`nextByte_past`, `nextUnit_past`,
`program_past`).

**History.**  `RandomSource.after` is the source of a seed after some draws.  It is past the words
that they take together (`after_eq_past`), in whatever order they were made.

**Result.**  `draws_gap_free`: which words of the stream the next draw takes, what it makes of them,
and that nothing of the stream is lost.
-/

namespace ErrorFree

namespace ChaCha

/-- The words of all blocks of a key, one after the other. -/
def word (key : Vector UInt32 8) (k : Nat) : UInt32 :=
  (block key (k / 16)).get ⟨k % 16, Nat.mod_lt k (by decide)⟩

end ChaCha

namespace RandomSource

section Places

variable (key : Vector UInt32 8) (k : Nat)

/-- The source of a key after its first `k` words. -/
def past : RandomSource where
  key
  buffer := if k % 16 = 0 then [] else (ChaCha.block key (k / 16)).toList.drop (k % 16)
  counter := (k + 15) / 16

theorem past_of_block (h : k % 16 = 0) : past key k = ⟨key, [], k / 16⟩ := by
  have hcounter : (k + 15) / 16 = k / 16 := by omega
  rw [past, if_pos h, hcounter]

theorem past_of_within (h : k % 16 ≠ 0) :
    past key k =
      ⟨key, (ChaCha.block key (k / 16)).toList.drop (k % 16), k / 16 + 1⟩ := by
  have hcounter : (k + 15) / 16 = k / 16 + 1 := by omega
  rw [past, if_neg h, hcounter]

theorem ofSeed_eq_past (seed : UInt64) : ofSeed seed = past (ChaCha.key seed) 0 := rfl

/-- The words of a block from `k` on. -/
theorem drop_block :
    (ChaCha.block key (k / 16)).toList.drop (k % 16) =
      ChaCha.word key k :: (ChaCha.block key (k / 16)).toList.drop (k % 16 + 1) := by
  have hlength : (ChaCha.block key (k / 16)).toList.length = 16 := Vector.length_toList
  have hmod : k % 16 < 16 := Nat.mod_lt k (by decide)
  rw [List.drop_eq_getElem_cons (by rw [hlength]; exact hmod)]
  rfl

/-- Behind word `k` of the stream the rest of its block is left. -/
theorem past_succ :
    past key (k + 1) =
      ⟨key, (ChaCha.block key (k / 16)).toList.drop (k % 16 + 1), k / 16 + 1⟩ := by
  by_cases hend : (k + 1) % 16 = 0
  · have hlast : k % 16 + 1 = 16 := by omega
    have hblock : (k + 1) / 16 = k / 16 + 1 := by omega
    rw [past_of_block key (k + 1) hend, hblock, hlast,
      List.drop_eq_nil_of_le (Vector.length_toList).le]
  · have hsame : (k + 1) / 16 = k / 16 := by omega
    have hnext : (k + 1) % 16 = k % 16 + 1 := by omega
    rw [past_of_within key (k + 1) hend, hsame, hnext]

/-- The next word is the next one of the stream, within a block and at the end of one. -/
theorem nextWord_past : (past key k).nextWord = (ChaCha.word key k, past key (k + 1)) := by
  rw [past_succ]
  by_cases h : k % 16 = 0
  · have hword : (ChaCha.block key (k / 16))[0] = ChaCha.word key k := by
      simp only [ChaCha.word, h]
      rfl
    rw [past_of_block key k h, nextWord, h, ← hword, List.drop_one]
  · rw [past_of_within key k h, drop_block]
    rfl

end Places

section Draws

variable (key : Vector UInt32 8) (k : Nat)

theorem nextByte_past :
    (past key k).nextByte = ((ChaCha.word key k).toUInt8, past key (k + 1)) := by
  rw [nextByte, nextWord_past]

/-- The upper 53 bits of the 64 bits that two words make, the low word first. -/
def upperBits (low high : UInt32) : Nat := (high.toNat * 2 ^ 32 + low.toNat) >>> 11

theorem upperBits_lt (low high : UInt32) : upperBits low high < 2 ^ 53 := by
  have hlow := low.toNat_lt
  have hhigh := high.toNat_lt
  rw [upperBits, Nat.shiftRight_eq_div_pow]
  omega

theorem nextUnit_past :
    (past key k).nextUnit =
      (Binary64.ofScaled false (upperBits (ChaCha.word key k) (ChaCha.word key (k + 1)))
        (Binary64.oneExponent - 53), past key (k + 2)) := by
  rw [nextUnit, nextWord_past]
  dsimp only
  rw [nextWord_past, upperBits, Nat.shiftRight_eq_div_pow]
  rfl

/-- A fraction of 53 bits is a number, without rounding. -/
theorem value_fraction {n : Nat} (h : n < 2 ^ 53) :
    (Binary64.ofScaled false n (Binary64.oneExponent - 53)).isFinite = true ∧
      (Binary64.ofScaled false n (Binary64.oneExponent - 53)).isNegative = false ∧
      (Binary64.ofScaled false n (Binary64.oneExponent - 53)).value = n / 2 ^ 53 := by
  have hbits : n < Binary64.twoTo 53 := by
    rw [Binary64.twoTo_eq]
    exact h
  have hfinite : (Binary64.assemble false n (Binary64.oneExponent - 53)).isFinite = true := by
    apply Binary64.isFinite_assemble false hbits.le
    rw [Binary64.twoTo_add]
    exact Nat.mul_lt_mul_of_lt_of_le hbits (Binary64.twoTo_le_twoTo (by decide))
      (Binary64.twoTo_pos _)
  have hpow : (2 : ℚ) ^ Binary64.oneExponent = 2 ^ (Binary64.oneExponent - 53) * 2 ^ 53 :=
    (pow_sub_mul_pow 2 (by decide)).symm
  have hvalue : ((Binary64.signed false n : Int) : ℚ) = n := Int.cast_natCast n
  rw [Binary64.ofScaled, if_pos hbits]
  refine ⟨hfinite, Binary64.isNegative_assemble false n _, ?_⟩
  rw [Binary64.value_assemble hfinite, hvalue, hpow, mul_comm ((2 : ℚ) ^ _) (2 ^ 53),
    mul_div_mul_right _ _ (by positivity)]

/-- A program takes one word for each byte. -/
theorem extendProgram_past (n : Nat) (program : Array UInt8) :
    extendProgram n program (past key k) =
      (program ++ ((List.range' k n).map fun i => (ChaCha.word key i).toUInt8).toArray,
        past key (k + n)) := by
  induction n generalizing k program with
  | zero => simp [extendProgram]
  | succ n ih =>
      have hplace : k + 1 + n = k + (n + 1) := by omega
      rw [extendProgram, nextByte_past]
      dsimp only
      rw [ih, hplace, List.range'_succ, List.map_cons]
      simp

theorem program_past (n : Nat) :
    (past key k).program n =
      (((List.range' k n).map fun i => (ChaCha.word key i).toUInt8).toArray, past key (k + n)) := by
  rw [program, extendProgram_past, Array.empty_append]

end Draws

section History

/-- What can be drawn from a source. -/
inductive Draw where
  | unit
  | byte
  /-- A random program of so many bytes. -/
  | program (length : Nat)

/-- How many words a draw takes. -/
def Draw.width : Draw → Nat
  | .unit => 2
  | .byte => 1
  | .program length => length

/-- The source after a draw. -/
def drawn (s : RandomSource) : Draw → RandomSource
  | .unit => s.nextUnit.2
  | .byte => s.nextByte.2
  | .program length => (s.program length).2

/-- The source of a seed after a history of draws. -/
def after (seed : UInt64) (history : List Draw) : RandomSource := history.foldl drawn (ofSeed seed)

/-- How many words a history of draws takes. -/
def position (history : List Draw) : Nat := (history.map Draw.width).sum

/-- The word of a source that comes after `j` others. -/
def upcoming (s : RandomSource) (j : Nat) : UInt32 :=
  (Nat.repeat (fun s => s.nextWord.2) j s).nextWord.1

theorem drawn_past (key : Vector UInt32 8) (k : Nat) (d : Draw) :
    (past key k).drawn d = past key (k + d.width) := by
  cases d with
  | unit => rw [drawn, nextUnit_past, Draw.width]
  | byte => rw [drawn, nextByte_past, Draw.width]
  | program length => rw [drawn, program_past, Draw.width]

/-- Draws lead past the words they take, in whatever order they are made. -/
theorem after_eq_past (seed : UInt64) (history : List Draw) :
    after seed history = past (ChaCha.key seed) (position history) := by
  induction history using List.reverseRecOn with
  | nil => exact ofSeed_eq_past seed
  | append_singleton history d ih =>
      have hafter : after seed (history ++ [d]) = (after seed history).drawn d := by simp [after]
      have hposition : position (history ++ [d]) = position history + d.width := by simp [position]
      rw [hafter, ih, drawn_past, hposition]

theorem upcoming_past (key : Vector UInt32 8) (k j : Nat) :
    (past key k).upcoming j = ChaCha.word key (k + j) := by
  have hskip : Nat.repeat (fun s => s.nextWord.2) j (past key k) = past key (k + j) := by
    induction j with
    | zero => rfl
    | succ j ih =>
        rw [Nat.repeat, ih, nextWord_past]
        rfl
  rw [upcoming, hskip, nextWord_past]

/-- **All draws come from one stream without gaps.**  After any draws from the source of a seed, of
bytes, of values and of programs in any order, let `k` be the number of words that they take: one
for a byte, two for a value, and one for each byte of a program.

* What is left of the source is the stream from word `k` on, so no word was left out or used twice.
* The next byte is the low eight bits of word `k`.
* The next value is made of the words `k` and `k + 1`, which may lie in different blocks: the 64
  bits with word `k` as their lower half, shifted down by eleven, times `2 ^ -53`.  It is not
  rounded, and it is from zero up to, but not including, one.
* The next program of `n` bytes has the low eight bits of the `n` words from `k` on.
* Two programs one after the other are the two parts of one program. -/
theorem draws_gap_free (seed : UInt64) (history : List Draw) :
    (∀ j, (after seed history).upcoming j =
      ChaCha.word (ChaCha.key seed) (position history + j)) ∧
    (after seed history).nextByte.1.toNat =
      (ChaCha.word (ChaCha.key seed) (position history)).toNat % 2 ^ 8 ∧
    ((after seed history).nextUnit.1.isFinite = true ∧
      (after seed history).nextUnit.1.isNegative = false ∧
      (after seed history).nextUnit.1.value =
        (((ChaCha.word (ChaCha.key seed) (position history + 1)).toNat * 2 ^ 32 +
          (ChaCha.word (ChaCha.key seed) (position history)).toNat) >>> 11 : Nat) / 2 ^ 53 ∧
      0 ≤ (after seed history).nextUnit.1.value ∧ (after seed history).nextUnit.1.value < 1) ∧
    (∀ n, ((after seed history).program n).1.toList.map UInt8.toNat =
      (List.range n).map fun i =>
        (ChaCha.word (ChaCha.key seed) (position history + i)).toNat % 2 ^ 8) ∧
    (∀ m n, ((after seed history).program (m + n)).1 =
      ((after seed history).program m).1 ++ (((after seed history).program m).2.program n).1) := by
  rw [after_eq_past]
  have hlt := upperBits_lt (ChaCha.word (ChaCha.key seed) (position history))
    (ChaCha.word (ChaCha.key seed) (position history + 1))
  obtain ⟨hfinite, hpositive, hvalue⟩ := value_fraction hlt
  refine ⟨upcoming_past _ _, ?_, ?_, ?_, ?_⟩
  · rw [nextByte_past]
    exact UInt32.toNat_toUInt8 _
  · rw [nextUnit_past]
    refine ⟨hfinite, hpositive, hvalue, ?_, ?_⟩
    · rw [hvalue]
      positivity
    · rw [hvalue, div_lt_one (by positivity)]
      exact_mod_cast hlt
  · intro n
    rw [program_past, List.map_map, List.range'_eq_map_range, List.map_map]
    apply List.map_congr_left
    intro i _
    exact UInt32.toNat_toUInt8 _
  · intro m n
    rw [program_past, program_past]
    dsimp only
    rw [program_past, List.append_toArray, ← List.map_append, List.range'_append_1]

end History

end RandomSource

end ErrorFree
