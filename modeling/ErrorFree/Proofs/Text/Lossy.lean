import ErrorFree.Proofs.Text.Utf8
import Mathlib.Logic.Basic

/-!
# Text from bytes that may be invalid

**Rule.**  `Decodes` says what bytes stand for, without a decoder: they are cut into the bytes of
characters and maximal invalid subparts.  Such a subpart stands where no character does, and is the
longest part there that begins one, or a single byte (`MaximalSubpart`).

**Decoder.**  The decoder has only a pending character, not the bytes that it has seen of it.
`Begun` ties the two: the characters that begin with the bytes seen are those whose code the pending
one covers, and each continuation byte that is allowed narrows them down.

**Results.**
* `decodes_iff`: the decoder gives what the bytes stand for by the rule, and they stand for one thing
  only.
* `filter_isAscii_of_decodes`: of the text, the characters below 128 are the bytes below 128.
-/

namespace ErrorFree

namespace Utf8

/-- Some bytes in front of others are an invalid sequence of their own. -/
structure MaximalSubpart (sub rest : List UInt8) : Prop where
  ne_nil : sub ≠ []
  /-- No character stands here. -/
  no_char : ∀ c, ¬ String.utf8EncodeChar c <+: sub ++ rest
  /-- It is a single byte or begins a character. -/
  begins : sub.length = 1 ∨ ∃ c, sub <+: String.utf8EncodeChar c
  /-- With the next byte it does not begin a character. -/
  longest : ∀ b more, rest = b :: more → ∀ c, ¬ sub ++ [b] <+: String.utf8EncodeChar c

/-- Bytes as characters and invalid sequences, the latter as `none`. -/
inductive Decodes : List UInt8 → List (Option Char) → Prop
  | nil : Decodes [] []
  | char (c : Char) {rest : List UInt8} {items : List (Option Char)} (h : Decodes rest items) :
      Decodes (String.utf8EncodeChar c ++ rest) (some c :: items)
  | invalid {sub rest : List UInt8} {items : List (Option Char)} (hsub : MaximalSubpart sub rest)
      (h : Decodes rest items) : Decodes (sub ++ rest) (none :: items)

section Groups

/-- A code without its last `k` groups of six bits. -/
def above : Nat → Nat → Nat
  | 0, code => code
  | k + 1, code => above k code / 64

/-- The continuation bytes for the last `k` groups of a code. -/
def tails : Nat → Nat → List UInt8
  | 0, _ => []
  | k + 1, code => UInt8.ofNat (above k code % 64 + 128) :: tails k code

/-- The codes of characters with `k` continuation bytes. -/
inductive Spans : Nat → Nat → Prop
  | one {code : Nat} (hlow : 0x7F < code) (hhigh : code ≤ 0x7FF) : Spans 1 code
  | two {code : Nat} (hlow : 0x7FF < code) (hhigh : code ≤ 0xFFFF)
      (hgap : code < 0xD800 ∨ 0xDFFF < code) : Spans 2 code
  | three {code : Nat} (hlow : 0xFFFF < code) (hhigh : code < 0x110000) : Spans 3 code

/-- The lead byte before `k` continuation bytes, without the bits of the code. -/
def mark : Nat → Nat
  | 1 => 0xC0
  | 2 => 0xE0
  | _ => 0xF0

/-- The codes that a pending character can still have. -/
def Pending.Covers (p : Pending) (code : Nat) : Prop :=
  above p.owed code = p.value ∧
    p.low ≤ above (p.owed - 1) code % 64 + 128 ∧ above (p.owed - 1) code % 64 + 128 ≤ p.high

variable {b : UInt8} {p : Pending} {c : Char} {k code : Nat}

theorem covers_succ {n low high value : Nat} :
    Pending.Covers ⟨n + 1, low, high, value⟩ code ↔
      above n code / 64 = value ∧ low ≤ above n code % 64 + 128 ∧
        above n code % 64 + 128 ≤ high := Iff.rfl

theorem length_tails (k code : Nat) : (tails k code).length = k := by
  induction k with
  | zero => rfl
  | succ k ih => rw [tails, List.length_cons, ih]

/-- Every number is what is above the last groups of some code. -/
theorem exists_above (k g : Nat) : ∃ code, above k code = g := by
  induction k generalizing g with
  | zero => exact ⟨g, rfl⟩
  | succ k ih =>
      obtain ⟨code, hcode⟩ := ih (g * 64)
      exact ⟨code, by rw [above, hcode, Nat.mul_div_cancel g (by decide)]⟩

/-- A character has one byte, or a lead byte and continuation bytes. -/
theorem spans_cases (c : Char) : c.toNat ≤ 0x7F ∨ ∃ k, Spans k c.toNat := by
  have hvalid : c.toNat < 0xD800 ∨ 0xDFFF < c.toNat ∧ c.toNat < 0x110000 := c.valid
  by_cases hone : c.toNat ≤ 0x7F
  · exact Or.inl hone
  · right
    by_cases htwo : c.toNat ≤ 0x7FF
    · exact ⟨1, .one (by omega) htwo⟩
    · by_cases hthree : c.toNat ≤ 0xFFFF
      · exact ⟨2, .two (by omega) hthree (by omega)⟩
      · exact ⟨3, .three (by omega) (by omega)⟩

theorem isValidChar_of_spans (h : Spans k code) : code.isValidChar := by
  unfold Nat.isValidChar
  cases h <;> omega

theorem encodeChar_of_one (h : c.toNat ≤ 0x7F) :
    String.utf8EncodeChar c = [UInt8.ofNat c.toNat] := if_pos h

/-- The bytes of a character by the groups of its code. -/
theorem encodeChar_of_spans (h : Spans k c.toNat) :
    String.utf8EncodeChar c = UInt8.ofNat (above k c.toNat + mark k) :: tails k c.toNat := by
  have hval : c.val.toNat = c.toNat := rfl
  simp only [String.utf8EncodeChar, hval]
  cases h with
  | one hlow hhigh =>
      rw [if_neg (by omega), if_pos hhigh]
      simp only [above, mark, tails]
      rw [show c.toNat / 64 % 32 = c.toNat / 64 by omega]
  | two hlow hhigh _ =>
      rw [if_neg (by omega), if_neg (by omega), if_pos hhigh]
      simp only [above, mark, tails]
      rw [show c.toNat / 4096 % 16 = c.toNat / 64 / 64 by omega]
  | three hlow hhigh =>
      rw [if_neg (by omega), if_neg (by omega), if_neg (by omega)]
      simp only [above, mark, tails]
      rw [show c.toNat / 262144 % 8 = c.toNat / 64 / 64 / 64 by omega,
        show c.toNat / 4096 = c.toNat / 64 / 64 by omega]

/-- The lead byte of a code leaves a pending character that covers it. -/
theorem lead_of_spans (h : Spans k code) :
    ∃ low high, lead (UInt8.ofNat (above k code + mark k)) =
        .pending ⟨k, low, high, above k code⟩ ∧
      Pending.Covers ⟨k, low, high, above k code⟩ code := by
  cases h with
  | one hlow hhigh =>
      have hlead := lead_of_two hlow hhigh
      rw [show code / 64 % 32 = code / 64 by omega] at hlead
      exact ⟨_, _, hlead, rfl, by simp only; omega, by simp only; omega⟩
  | two hlow hhigh hgap =>
      obtain ⟨low, high, hlead, hbounds⟩ := lead_of_three hlow hhigh hgap
      rw [show code / 4096 % 16 = code / 64 / 64 by omega,
        show code / 4096 = code / 64 / 64 by omega] at hlead
      exact ⟨low, high, hlead, rfl, hbounds⟩
  | three hlow hhigh =>
      obtain ⟨low, high, hlead, hbounds⟩ := lead_of_four hlow hhigh
      rw [show code / 262144 % 8 = code / 64 / 64 / 64 by omega,
        show code / 262144 = code / 64 / 64 / 64 by omega] at hlead
      rw [show code / 4096 = code / 64 / 64 by omega] at hbounds
      exact ⟨low, high, hlead, rfl, hbounds⟩

/-- A pending character admits some byte next, and continuation bytes only. -/
structure Pending.Bounded (p : Pending) : Prop where
  owed_pos : 0 < p.owed
  le_low : 0x80 ≤ p.low
  low_le : p.low ≤ p.high
  high_le : p.high ≤ 0xBF

/-- A pending character covers codes with as many continuation bytes as it owes. -/
structure Pending.Sound (p : Pending) : Prop extends p.Bounded where
  spans : ∀ code, p.Covers code → Spans p.owed code

section Sound

variable {low high value : Nat}

theorem sound_two (hlow : 2 ≤ value) (hhigh : value < 32) :
    Pending.Sound ⟨1, 0x80, 0xBF, value⟩ := by
  refine ⟨⟨Nat.one_pos, Nat.le_refl _, by simp only; omega, Nat.le_refl _⟩, ?_⟩
  rintro code ⟨hvalue, -, -⟩
  simp only [above] at hvalue
  exact .one (by omega) (by omega)

/-- No code below `0x800`, and no surrogate. -/
theorem sound_three (hvalue : value < 16) (hbounds : 0x80 ≤ low ∧ low ≤ high ∧ high ≤ 0xBF)
    (hgaps : (value = 0 → 0xA0 ≤ low) ∧ (value = 13 → high ≤ 0x9F)) :
    Pending.Sound ⟨2, low, high, value⟩ := by
  refine ⟨⟨Nat.two_pos, hbounds.1, hbounds.2.1, hbounds.2.2⟩, ?_⟩
  rintro code ⟨habove, hge, hle'⟩
  simp only [above] at habove hge hle'
  exact .two (by omega) (by omega) (by omega)

/-- No code below `0x10000`, and none above the last one. -/
theorem sound_four (hvalue : value ≤ 4) (hbounds : 0x80 ≤ low ∧ low ≤ high ∧ high ≤ 0xBF)
    (hgaps : (value = 0 → 0x90 ≤ low) ∧ (value = 4 → high ≤ 0x8F)) :
    Pending.Sound ⟨3, low, high, value⟩ := by
  refine ⟨⟨Nat.succ_pos 2, hbounds.1, hbounds.2.1, hbounds.2.2⟩, ?_⟩
  rintro code ⟨habove, hge, hle'⟩
  simp only [above] at habove hge hle'
  exact .three (by omega) (by omega)

end Sound

/-- What a lead byte leaves pending. -/
theorem lead_pending (h : lead b = .pending p) : b.toNat = p.value + mark p.owed ∧ p.Sound := by
  have hbyte := b.toNat_lt
  simp only [lead] at h
  -- One goal for each kind of lead byte, with the bounds that it sets for the next one.
  obtain ⟨hb, h⟩ | ⟨hb, h⟩ := ite_eq_iff.mp h
  · cases h
  obtain ⟨hb, h⟩ | ⟨hb, h⟩ := ite_eq_iff.mp h
  · cases h
  obtain ⟨hb, h⟩ | ⟨hb, h⟩ := ite_eq_iff.mp h
  · cases h
    exact ⟨by simp only [mark]; omega, sound_two (by omega) (by omega)⟩
  obtain ⟨hb, h⟩ | ⟨hb, h⟩ := ite_eq_iff.mp h
  · cases h
    exact ⟨by simp only [mark]; omega, sound_three (by omega) (by omega) (by omega)⟩
  obtain ⟨hb, h⟩ | ⟨hb, h⟩ := ite_eq_iff.mp h
  · cases h
    exact ⟨by simp only [mark]; omega, sound_three (by omega) (by omega) (by omega)⟩
  obtain ⟨hb, h⟩ | ⟨hb, h⟩ := ite_eq_iff.mp h
  · cases h
    exact ⟨by simp only [mark]; omega, sound_three (by omega) (by omega) (by omega)⟩
  obtain ⟨hb, h⟩ | ⟨hb, h⟩ := ite_eq_iff.mp h
  · cases h
    exact ⟨by simp only [mark]; omega, sound_four (by omega) (by omega) (by omega)⟩
  obtain ⟨hb, h⟩ | ⟨hb, h⟩ := ite_eq_iff.mp h
  · cases h
    exact ⟨by simp only [mark]; omega, sound_four (by omega) (by omega) (by omega)⟩
  obtain ⟨hb, h⟩ | ⟨hb, h⟩ := ite_eq_iff.mp h
  · cases h
    exact ⟨by simp only [mark]; omega, sound_four (by omega) (by omega) (by omega)⟩
  cases h

end Groups

section Sequences

/-- The decoder has a character pending after the bytes `seen`. -/
structure Begun (seen : List UInt8) (p : Pending) : Prop extends p.Bounded where
  ne_nil : seen ≠ []
  valid : ∀ code, p.Covers code → code.isValidChar
  covers : ∀ c, seen <+: String.utf8EncodeChar c → p.Covers c.toNat
  encode_eq : ∀ c, p.Covers c.toNat →
    String.utf8EncodeChar c = seen ++ tails p.owed c.toNat
  no_char : ∀ c, ¬ String.utf8EncodeChar c <+: seen

variable {seen rest : List UInt8} {b : UInt8} {p : Pending} {c : Char} {code : Nat}

theorem encodeChar_ne_nil (c : Char) : String.utf8EncodeChar c ≠ [] := by
  intro hnil
  have hdecode := decodeFrom_encodeChar c []
  rw [hnil] at hdecode
  cases hdecode

theorem toNat_ofNat_of_valid (h : code.isValidChar) : (Char.ofNat code).toNat = code := by
  rw [Char.ofNat, dif_pos h]
  rfl

/-- A byte that leaves continuation bytes owed does not complete a character. -/
theorem no_char_concat {owed : Nat} (hseen : ∀ c, ¬ String.utf8EncodeChar c <+: seen)
    (howed : 0 < owed)
    (hencode : ∀ c, seen ++ [b] <+: String.utf8EncodeChar c →
      String.utf8EncodeChar c = seen ++ [b] ++ tails owed c.toNat) (c : Char) :
    ¬ String.utf8EncodeChar c <+: seen ++ [b] := by
  intro hc
  rcases List.prefix_concat_iff.mp hc with heq | hc
  · have hwhole := hencode c (heq ▸ List.prefix_rfl)
    rw [heq] at hwhole
    have hnone := congrArg List.length (List.self_eq_append_right.mp hwhole)
    rw [length_tails] at hnone
    exact Nat.ne_of_gt howed hnone
  · exact hseen c hc

/-- What the first byte of a character begins. -/
theorem lead_of_prefix (hc : [b] <+: String.utf8EncodeChar c) :
    lead b = .char c ∨ ∃ p, lead b = .pending p ∧ p.Covers c.toNat := by
  rcases spans_cases c with hone | ⟨k, hspans⟩
  · rw [encodeChar_of_one hone, List.cons_prefix_cons] at hc
    rw [hc.1]
    exact Or.inl (lead_of_one hone)
  · obtain ⟨low, high, hlead, hcovers⟩ := lead_of_spans hspans
    rw [encodeChar_of_spans hspans, List.cons_prefix_cons] at hc
    rw [hc.1]
    exact Or.inr ⟨_, hlead, hcovers⟩

/-- A lead byte that leaves a character pending is the first of its bytes. -/
theorem begun_of_lead (h : lead b = .pending p) : Begun [b] p := by
  obtain ⟨hbyte, hsound⟩ := lead_pending h
  have hcovers : ∀ c, [b] <+: String.utf8EncodeChar c → p.Covers c.toNat := by
    intro c hc
    rcases lead_of_prefix hc with hlead | ⟨_, hlead, hcovers⟩
    · rw [hlead] at h
      cases h
    · rw [hlead] at h
      cases h
      exact hcovers
  have hencode : ∀ c, p.Covers c.toNat →
      String.utf8EncodeChar c = [b] ++ tails p.owed c.toNat := by
    intro c hc
    rw [encodeChar_of_spans (hsound.spans _ hc), hc.1, ← hbyte, UInt8.ofNat_toNat]
    rfl
  refine ⟨hsound.toBounded, List.cons_ne_nil b [], ?_, hcovers, hencode, ?_⟩
  · intro code hcode
    exact isValidChar_of_spans (hsound.spans code hcode)
  · have hnil : ∀ c, ¬ String.utf8EncodeChar c <+: [] :=
      fun c hc => encodeChar_ne_nil c (List.prefix_nil.mp hc)
    exact no_char_concat hnil hsound.owed_pos fun c hc => hencode c (hcovers c hc)

section Next

variable {n low high value : Nat}

/-- The byte after those seen in a character. -/
theorem Begun.next (h : Begun seen ⟨n + 1, low, high, value⟩)
    (hc : seen ++ [b] <+: String.utf8EncodeChar c) :
    Pending.Covers ⟨n + 1, low, high, value⟩ c.toNat ∧
      b.toNat = above n c.toNat % 64 + 128 := by
  have hcovers := h.covers c ((List.prefix_append seen [b]).trans hc)
  rw [h.encode_eq c hcovers, List.prefix_append_right_inj, tails, List.cons_prefix_cons] at hc
  refine ⟨hcovers, ?_⟩
  rw [hc.1]
  exact toNat_ofNat_of_lt (by omega)

/-- A byte that is allowed narrows down what is covered to the codes that have it next. -/
theorem covers_next_iff (hle : 0x80 ≤ low) (hge : high ≤ 0xBF) (hlow : low ≤ b.toNat)
    (hhigh : b.toNat ≤ high) :
    Pending.Covers ⟨n + 1, 0x80, 0xBF, value * 64 + (b.toNat - 0x80)⟩ code ↔
      Pending.Covers ⟨n + 2, low, high, value⟩ code ∧
        b.toNat = above (n + 1) code % 64 + 128 := by
  rw [covers_succ, covers_succ, above]
  omega

/-- A continuation byte that is allowed, with more to come. -/
theorem Begun.step (h : Begun seen ⟨n + 2, low, high, value⟩) (hlow : low ≤ b.toNat)
    (hhigh : b.toNat ≤ high) :
    Begun (seen ++ [b]) ⟨n + 1, 0x80, 0xBF, value * 64 + (b.toNat - 0x80)⟩ := by
  have hiff : ∀ code, Pending.Covers ⟨n + 1, 0x80, 0xBF, value * 64 + (b.toNat - 0x80)⟩ code ↔
      Pending.Covers ⟨n + 2, low, high, value⟩ code ∧ b.toNat = above (n + 1) code % 64 + 128 :=
    fun code => covers_next_iff h.le_low h.high_le hlow hhigh
  have hcovers : ∀ c, seen ++ [b] <+: String.utf8EncodeChar c →
      Pending.Covers ⟨n + 1, 0x80, 0xBF, value * 64 + (b.toNat - 0x80)⟩ c.toNat :=
    fun c hc => (hiff c.toNat).mpr (h.next hc)
  have hencode : ∀ c, Pending.Covers ⟨n + 1, 0x80, 0xBF, value * 64 + (b.toNat - 0x80)⟩ c.toNat →
      String.utf8EncodeChar c = seen ++ [b] ++ tails (n + 1) c.toNat := by
    intro c hc
    obtain ⟨hcovered, hbyte⟩ := (hiff c.toNat).mp hc
    rw [h.encode_eq c hcovered, tails, ← hbyte, UInt8.ofNat_toNat, List.append_cons]
  have hbounded : Pending.Bounded ⟨n + 1, 0x80, 0xBF, value * 64 + (b.toNat - 0x80)⟩ :=
    ⟨Nat.succ_pos n, Nat.le_refl _, Nat.le_add_right 0x80 0x3F, Nat.le_refl _⟩
  refine ⟨hbounded, by simp, ?_, hcovers, hencode, ?_⟩
  · intro code hcode
    exact h.valid code ((hiff code).mp hcode).1
  · exact no_char_concat h.no_char (Nat.succ_pos n) fun c hc => hencode c (hcovers c hc)

/-- The last continuation byte, if it is allowed, completes a character. -/
theorem Begun.encodeChar_eq (h : Begun seen ⟨1, low, high, value⟩) (hlow : low ≤ b.toNat)
    (hhigh : b.toNat ≤ high) :
    String.utf8EncodeChar (Char.ofNat (value * 64 + (b.toNat - 0x80))) = seen ++ [b] := by
  have hle : 0x80 ≤ low := h.le_low
  have hge : high ≤ 0xBF := h.high_le
  have hcovers : Pending.Covers ⟨1, low, high, value⟩ (value * 64 + (b.toNat - 0x80)) := by
    rw [covers_succ, above]
    omega
  have hcode := toNat_ofNat_of_valid (h.valid _ hcovers)
  rw [h.encode_eq _ (by rwa [hcode]), hcode]
  simp only [tails, above]
  rw [show (value * 64 + (b.toNat - 0x80)) % 64 + 128 = b.toNat by omega, UInt8.ofNat_toNat]

/-- Some character begins with what was seen. -/
theorem Begun.exists_char (h : Begun seen ⟨n + 1, low, high, value⟩) :
    ∃ c, seen <+: String.utf8EncodeChar c := by
  have hle : 0x80 ≤ low := h.le_low
  have hlow : low ≤ high := h.low_le
  have hge : high ≤ 0xBF := h.high_le
  obtain ⟨code, hcode⟩ := exists_above n (value * 64 + (low - 0x80))
  have hcovers : Pending.Covers ⟨n + 1, low, high, value⟩ code := by
    rw [covers_succ, hcode]
    omega
  refine ⟨Char.ofNat code, ?_⟩
  rw [h.encode_eq _ (by rwa [toNat_ofNat_of_valid (h.valid code hcovers)])]
  exact List.prefix_append _ _

/-- Before the end, or a byte that is not allowed, what was seen is an invalid sequence. -/
theorem Begun.maximalSubpart (h : Begun seen ⟨n + 1, low, high, value⟩)
    (hrest : ∀ b more, rest = b :: more → ¬ (low ≤ b.toNat ∧ b.toNat ≤ high)) :
    MaximalSubpart seen rest := by
  have hnext : ∀ b more, rest = b :: more → ∀ c, ¬ seen ++ [b] <+: String.utf8EncodeChar c := by
    intro b more heq c hc
    obtain ⟨hcovers, hbyte⟩ := h.next hc
    rw [covers_succ, ← hbyte] at hcovers
    exact hrest b more heq hcovers.2
  refine ⟨h.ne_nil, ?_, Or.inr h.exists_char, hnext⟩
  intro c hc
  rcases List.prefix_or_prefix_of_prefix hc (List.prefix_append seen rest) with hshort | hlong
  · exact h.no_char c hshort
  · -- A character that goes on behind what was seen has the next byte of the rest in it.
    have hencode := h.encode_eq c (h.covers c hlong)
    rw [hencode, List.prefix_append_right_inj, tails] at hc
    obtain ⟨more, hmore⟩ := hc
    refine hnext _ _ hmore.symm c ⟨tails n c.toNat, ?_⟩
    rw [hencode, tails, ← List.append_cons]

end Next

/-- A byte that begins no character is an invalid sequence. -/
theorem maximalSubpart_of_lead (h : lead b = .invalid) (rest : List UInt8) :
    MaximalSubpart [b] rest := by
  have hlead : ∀ c, ¬ [b] <+: String.utf8EncodeChar c := by
    intro c hc
    rcases lead_of_prefix hc with hchar | ⟨_, hpending, _⟩
    · rw [hchar] at h
      cases h
    · rw [hpending] at h
      cases h
  refine ⟨List.cons_ne_nil b [], ?_, Or.inl rfl, ?_⟩
  · intro c hc
    rcases List.prefix_cons_iff.mp hc with hnil | ⟨more, heq, -⟩
    · exact encodeChar_ne_nil c hnil
    · exact hlead c (heq ▸ List.prefix_append [b] more)
  · intro b' _ _ c hc
    exact hlead c ((List.prefix_append [b] [b']).trans hc)

end Sequences

section Decoding

variable {rest : List UInt8} {b : UInt8} {c : Char}

/-- The bytes seen of the character that a state has pending. -/
def Seen : Option Pending → List UInt8 → Prop
  | none, seen => seen = []
  | some p, seen => Begun seen p

theorem encodeChar_of_lead (h : lead b = .char c) : String.utf8EncodeChar c = [b] := by
  simp only [lead] at h
  obtain ⟨hlt, h⟩ | ⟨-, h⟩ := ite_eq_iff.mp h
  · cases h
    have hcode : (Char.ofNat b.toNat).toNat = b.toNat := toNat_ofNat_of_valid (Or.inl (by omega))
    rw [encodeChar_of_one (by omega), hcode, UInt8.ofNat_toNat]
  · iterate 8
      obtain ⟨-, h⟩ | ⟨-, h⟩ := ite_eq_iff.mp h
      · cases h
    cases h

/-- A byte between two characters, if what it leaves is decoded by the rule. -/
theorem decodes_beginChar (b : UInt8)
    (hrest : ∀ state seen, Seen state seen → Decodes (seen ++ rest) (decodeFrom state rest)) :
    Decodes (b :: rest) ((beginChar b).1 ++ decodeFrom (beginChar b).2 rest) := by
  unfold beginChar
  rcases hlead : lead b with c | p | _
  · have hchar := Decodes.char c (hrest none [] rfl)
    rw [encodeChar_of_lead hlead] at hchar
    exact hchar
  · exact hrest (some p) [b] (begun_of_lead hlead)
  · exact .invalid (maximalSubpart_of_lead hlead rest) (hrest none [] rfl)

/-- **The decoder follows the rule**, from every state. -/
theorem decodes_decodeFrom (bytes : List UInt8) (state : Option Pending) (seen : List UInt8)
    (h : Seen state seen) : Decodes (seen ++ bytes) (decodeFrom state bytes) := by
  induction bytes generalizing state seen with
  | nil =>
      cases state with
      | none =>
          obtain rfl : seen = [] := h
          exact .nil
      | some p =>
          obtain ⟨_ | n, low, high, value⟩ := p
          · cases h.owed_pos
          · exact .invalid (h.maximalSubpart fun b more hnil => nomatch hnil) .nil
  | cons b rest ih =>
      cases state with
      | none =>
          obtain rfl : seen = [] := h
          exact decodes_beginChar b ih
      | some p =>
          obtain ⟨_ | n, low, high, value⟩ := p
          · cases h.owed_pos
          · rw [decodeFrom, step]
            split
            · rename_i hrange
              obtain ⟨hlow, hhigh⟩ := hrange
              cases n with
              | zero =>
                  have hchar := Decodes.char (Char.ofNat (value * 64 + (b.toNat - 0x80)))
                    (ih none [] rfl)
                  rw [h.encodeChar_eq hlow hhigh] at hchar
                  simpa using hchar
              | succ n =>
                  have hmore := ih (some _) _ (h.step hlow hhigh)
                  simpa using hmore
            · rename_i hrange
              refine .invalid (h.maximalSubpart fun b' more heq => ?_) (decodes_beginChar b ih)
              obtain ⟨rfl, rfl⟩ := List.cons.inj heq
              exact hrange

end Decoding

section Unique

variable {sub sub' rest rest' bytes : List UInt8} {items items' : List (Option Char)} {c c' : Char}

/-- A character in front of bytes is known by them. -/
theorem encodeChar_append_inj
    (h : String.utf8EncodeChar c ++ rest = String.utf8EncodeChar c' ++ rest') :
    c = c' ∧ rest = rest' := by
  have hdecode := congrArg (decodeFrom none) h
  rw [decodeFrom_encodeChar, decodeFrom_encodeChar] at hdecode
  obtain rfl : c = c' := Option.some.inj (List.cons.inj hdecode).1
  exact ⟨rfl, List.append_cancel_left h⟩

/-- An invalid sequence is not a part of a longer one. -/
theorem MaximalSubpart.length_le (h : MaximalSubpart sub rest) (h' : MaximalSubpart sub' rest')
    (heq : sub ++ rest = sub' ++ rest') : sub'.length ≤ sub.length := by
  apply Nat.le_of_not_lt
  intro hlt
  obtain ⟨more, hmore⟩ : sub <+: sub' :=
    List.prefix_of_prefix_length_le (heq ▸ List.prefix_append sub rest)
      (List.prefix_append sub' rest') (Nat.le_of_lt hlt)
  subst hmore
  rw [List.append_assoc] at heq
  obtain rfl := List.append_cancel_left heq
  cases more with
  | nil => simp at hlt
  | cons b more =>
      rcases h'.begins with hone | ⟨c, hc⟩
      · have hpos := List.length_pos_iff.mpr h.ne_nil
        simp only [List.length_append, List.length_cons] at hone
        omega
      · rw [List.append_cons] at hc
        exact h.longest b (more ++ rest') rfl c ((List.prefix_append _ more).trans hc)

theorem MaximalSubpart.append_inj (h : MaximalSubpart sub rest) (h' : MaximalSubpart sub' rest')
    (heq : sub ++ rest = sub' ++ rest') : sub = sub' ∧ rest = rest' :=
  List.append_inj heq (Nat.le_antisymm (h'.length_le h heq.symm) (h.length_le h' heq))

/-- Bytes stand for one thing only. -/
theorem Decodes.unique (h : Decodes bytes items) (h' : Decodes bytes items') : items = items' := by
  induction h generalizing items' with
  | nil =>
      generalize hnil : ([] : List UInt8) = bytes at h'
      cases h' with
      | nil => rfl
      | char c _ => exact absurd (List.append_eq_nil_iff.mp hnil.symm).1 (encodeChar_ne_nil c)
      | invalid hsub _ => exact absurd (List.append_eq_nil_iff.mp hnil.symm).1 hsub.ne_nil
  | @char c rest items _ ih =>
      generalize heq : String.utf8EncodeChar c ++ rest = bytes at h'
      cases h' with
      | nil => exact absurd (List.append_eq_nil_iff.mp heq).1 (encodeChar_ne_nil c)
      | char c' h' =>
          obtain ⟨rfl, rfl⟩ := encodeChar_append_inj heq
          rw [ih h']
      | invalid hsub _ => exact absurd ⟨rest, heq⟩ (hsub.no_char c)
  | @invalid sub rest items hsub _ ih =>
      generalize heq : sub ++ rest = bytes at h'
      cases h' with
      | nil => exact absurd (List.append_eq_nil_iff.mp heq).1 hsub.ne_nil
      | char c' _ => exact absurd ⟨_, heq.symm⟩ (hsub.no_char c')
      | invalid hsub' h' =>
          obtain ⟨rfl, rfl⟩ := hsub.append_inj hsub' heq
          rw [ih h']

/-- **The decoder gives what the bytes stand for.** -/
theorem decodes_iff : Decodes bytes items ↔ decodeItems bytes = items := by
  have hdecodes : Decodes bytes (decodeItems bytes) := decodes_decodeFrom bytes none [] rfl
  constructor
  · exact hdecodes.unique
  · rintro rfl
    exact hdecodes

end Unique

section Ascii

variable {bytes sub rest : List UInt8} {items : List (Option Char)} {b : UInt8} {c : Char}

/-- The text of the bytes below 128, in their order. -/
def asciiText (bytes : List UInt8) : List Char :=
  (bytes.filter fun b => decide (b.toNat < 128)).map fun b => Char.ofNat b.toNat

/-- A character below 128. -/
def isAscii (c : Char) : Bool := decide (c.toNat < 128)

theorem asciiText_append (first second : List UInt8) :
    asciiText (first ++ second) = asciiText first ++ asciiText second := by
  simp [asciiText]

theorem asciiText_eq_nil (h : ∀ b ∈ bytes, ¬ b.toNat < 128) : asciiText bytes = [] := by
  rw [asciiText, List.filter_eq_nil_iff.mpr fun b hb => by simpa using h b hb]
  rfl

/-- The bytes of a character are below 128 if it is. -/
theorem asciiText_encodeChar (c : Char) :
    asciiText (String.utf8EncodeChar c) = [c].filter isAscii := by
  by_cases hc : c.toNat < 128
  · have hbyte : (UInt8.ofNat c.toNat).toNat = c.toNat := toNat_ofNat_of_lt (by omega)
    rw [encodeChar_of_one (by omega)]
    simp [asciiText, isAscii, hbyte, hc]
  · rw [asciiText_eq_nil]
    · simp [isAscii, hc]
    · intro b hb hlt
      exact hc (toNat_eq_of_mem_encodeChar hb hlt ▸ hlt)

/-- No byte of an invalid sequence is below 128: it would be a character. -/
theorem MaximalSubpart.asciiText_eq_nil (h : MaximalSubpart sub rest) : asciiText sub = [] := by
  apply Utf8.asciiText_eq_nil
  intro b hb hlt
  rcases h.begins with hone | ⟨c, hc⟩
  · obtain ⟨b', rfl⟩ := List.length_eq_one_iff.mp hone
    obtain rfl := List.mem_singleton.mp hb
    have hlead : lead b = .char (Char.ofNat b.toNat) := if_pos hlt
    apply h.no_char (Char.ofNat b.toNat)
    rw [encodeChar_of_lead hlead]
    exact List.prefix_append _ _
  · have hcode : c.toNat = b.toNat := toNat_eq_of_mem_encodeChar (hc.subset hb) hlt
    have hlength : (String.utf8EncodeChar c).length ≤ sub.length := by
      rw [encodeChar_of_one (by omega)]
      exact List.length_pos_iff.mpr h.ne_nil
    apply h.no_char c
    rw [← hc.eq_of_length_le hlength]
    exact List.prefix_append _ _

/-- **Bytes below 128 are never lost, moved or brought in.** -/
theorem filter_isAscii_of_decodes (h : Decodes bytes items) :
    (items.map fun item => item.getD '\uFFFD').filter isAscii = asciiText bytes := by
  induction h with
  | nil => rfl
  | char c _ ih =>
      rw [List.map_cons, asciiText_append, asciiText_encodeChar, ← ih]
      exact List.filter_append [c] _
  | invalid hsub _ ih =>
      rw [List.map_cons, asciiText_append, hsub.asciiText_eq_nil, ← ih]
      rfl

end Ascii

end Utf8

end ErrorFree
