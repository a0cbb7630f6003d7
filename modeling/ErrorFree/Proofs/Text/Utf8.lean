import ErrorFree.Text.Utf8

/-!
# Bytes of a text

To decode the bytes of a text gives the text back (`decodeItems_encode`), so that such bytes are valid
(`decode?_encode`).

**Argument.**  The bytes of a character are a lead byte and up to three continuation bytes with six
bits of the code each.  The lead byte may restrict the first of these; that this one keeps to it is
where the least code of each length and the gap of the surrogates come in.

**Bytes below 128.**  Each stands for a character of its own (`mem_of_mem_encode`).
-/

namespace ErrorFree

namespace Utf8

variable {state : Option Pending} {byte : UInt8} {p : Pending} {c : Char} {n v : Nat}

section Steps

theorem decodeFrom_of_pending (h : step state byte = ([], some p)) (rest : List UInt8) :
    decodeFrom state (byte :: rest) = decodeFrom (some p) rest := by
  rw [decodeFrom, h, List.nil_append]

theorem decodeFrom_of_char (h : step state byte = ([some c], none)) (rest : List UInt8) :
    decodeFrom state (byte :: rest) = some c :: decodeFrom none rest := by
  rw [decodeFrom, h, List.singleton_append]

/-- A byte that carries a number. -/
theorem toNat_ofNat_of_lt (h : n < 256) : (UInt8.ofNat n).toNat = n :=
  UInt8.toNat_ofNat_of_lt' h

variable {owed low high value : Nat}

/-- A continuation byte with six bits, and more to come. -/
theorem step_of_owed (hlow : low ≤ n + 128) (hhigh : n + 128 ≤ high) (hn : n < 64) :
    step (some ⟨owed + 2, low, high, value⟩) (UInt8.ofNat (n + 128)) =
      ([], some ⟨owed + 1, 0x80, 0xBF, value * 64 + n⟩) := by
  have hbyte : (UInt8.ofNat (n + 128)).toNat = n + 128 := toNat_ofNat_of_lt (by omega)
  have hmore : ¬ owed + 2 ≤ 1 := by omega
  simp only [step, hbyte, hlow, hhigh, and_self, if_true, hmore, if_false, Nat.add_sub_cancel]
  rfl

/-- The last continuation byte of a character. -/
theorem step_of_last (hlow : low ≤ n + 128) (hhigh : n + 128 ≤ high) (hn : n < 64)
    (hcode : value * 64 + n = c.toNat) :
    step (some ⟨1, low, high, value⟩) (UInt8.ofNat (n + 128)) = ([some c], none) := by
  have hbyte : (UInt8.ofNat (n + 128)).toNat = n + 128 := toNat_ofNat_of_lt (by omega)
  simp only [step, hbyte, hlow, hhigh, and_self, if_true, Nat.le_refl, Nat.add_sub_cancel, hcode,
    Char.ofNat_toNat]

end Steps

section Leads

theorem lead_of_one (h : c.toNat ≤ 0x7F) : lead (UInt8.ofNat c.toNat) = .char c := by
  have hbyte : (UInt8.ofNat c.toNat).toNat = c.toNat := toNat_ofNat_of_lt (by omega)
  simp only [lead, hbyte, if_pos (show c.toNat < 0x80 by omega), Char.ofNat_toNat]

theorem lead_of_two (hlow : 0x7F < v) (hhigh : v ≤ 0x7FF) :
    lead (UInt8.ofNat (v / 64 % 32 + 192)) = .pending ⟨1, 0x80, 0xBF, v / 64⟩ := by
  have hbyte : (UInt8.ofNat (v / 64 % 32 + 192)).toNat = v / 64 + 192 := by
    rw [toNat_ofNat_of_lt (by omega)]
    omega
  simp only [lead, hbyte]
  rw [if_neg (by omega), if_neg (by omega), if_pos (by omega), Nat.add_sub_cancel]

/-- The lead byte of three, with what it allows next.  Codes below `0x800` and surrogates are left
out by the bounds on the second byte. -/
theorem lead_of_three (hlow : 0x7FF < v) (hhigh : v ≤ 0xFFFF) (hvalid : v < 0xD800 ∨ 0xDFFF < v) :
    ∃ low high, lead (UInt8.ofNat (v / 4096 % 16 + 224)) = .pending ⟨2, low, high, v / 4096⟩ ∧
      low ≤ v / 64 % 64 + 128 ∧ v / 64 % 64 + 128 ≤ high := by
  have hbyte : (UInt8.ofNat (v / 4096 % 16 + 224)).toNat = v / 4096 + 224 := by
    rw [toNat_ofNat_of_lt (by omega)]
    omega
  simp only [lead, hbyte]
  rw [if_neg (by omega), if_neg (by omega), if_neg (by omega)]
  by_cases hfirst : v / 4096 = 0
  · refine ⟨0xA0, 0xBF, ?_, by omega, by omega⟩
    rw [if_pos (by omega), hfirst]
  · rw [if_neg (by omega)]
    by_cases hgap : v / 4096 = 13
    · refine ⟨0x80, 0x9F, ?_, by omega, by omega⟩
      rw [if_pos (by omega), Nat.add_sub_cancel]
    · refine ⟨0x80, 0xBF, ?_, by omega, by omega⟩
      rw [if_neg (by omega), if_pos (by omega), Nat.add_sub_cancel]

/-- The lead byte of four, with what it allows next.  Codes below `0x10000` and above the last one
are left out by the bounds on the second byte. -/
theorem lead_of_four (hlow : 0xFFFF < v) (hhigh : v < 0x110000) :
    ∃ low high, lead (UInt8.ofNat (v / 262144 % 8 + 240)) = .pending ⟨3, low, high, v / 262144⟩ ∧
      low ≤ v / 4096 % 64 + 128 ∧ v / 4096 % 64 + 128 ≤ high := by
  have hbyte : (UInt8.ofNat (v / 262144 % 8 + 240)).toNat = v / 262144 + 240 := by
    rw [toNat_ofNat_of_lt (by omega)]
    omega
  simp only [lead, hbyte]
  rw [if_neg (by omega), if_neg (by omega), if_neg (by omega), if_neg (by omega),
    if_neg (by omega), if_neg (by omega)]
  by_cases hfirst : v / 262144 = 0
  · refine ⟨0x90, 0xBF, ?_, by omega, by omega⟩
    rw [if_pos (by omega), hfirst]
  · rw [if_neg (by omega)]
    by_cases hlast : v / 262144 = 4
    · refine ⟨0x80, 0x8F, ?_, by omega, by omega⟩
      rw [if_neg (by omega), if_pos (by omega), Nat.add_sub_cancel]
    · refine ⟨0x80, 0xBF, ?_, by omega, by omega⟩
      rw [if_pos (by omega), Nat.add_sub_cancel]

end Leads

section Characters

theorem step_of_lead_char (h : lead byte = .char c) : step none byte = ([some c], none) := by
  rw [step, beginChar, h]

theorem step_of_lead_pending (h : lead byte = .pending p) : step none byte = ([], some p) := by
  rw [step, beginChar, h]

/-- The bytes of a character decode to it, whatever follows. -/
theorem decodeFrom_encodeChar (c : Char) (rest : List UInt8) :
    decodeFrom none (String.utf8EncodeChar c ++ rest) = some c :: decodeFrom none rest := by
  obtain ⟨v, hv⟩ : ∃ v, v = c.toNat := ⟨_, rfl⟩
  have hvalid : v < 0xD800 ∨ 0xDFFF < v ∧ v < 0x110000 := hv ▸ c.valid
  have hval : c.val.toNat = v := hv.symm
  simp only [String.utf8EncodeChar, hval]
  by_cases hone : v ≤ 0x7F
  · rw [if_pos hone, List.singleton_append, hv]
    exact decodeFrom_of_char (step_of_lead_char (lead_of_one (hv ▸ hone))) rest
  · rw [if_neg hone]
    by_cases htwo : v ≤ 0x7FF
    · rw [if_pos htwo, List.cons_append, List.singleton_append,
        decodeFrom_of_pending (step_of_lead_pending (lead_of_two (by omega) htwo))]
      apply decodeFrom_of_char
      apply step_of_last <;> omega
    · rw [if_neg htwo]
      by_cases hthree : v ≤ 0xFFFF
      · obtain ⟨low, high, hlead, hlow, hhigh⟩ := lead_of_three (by omega) hthree (by omega)
        rw [if_pos hthree, List.cons_append, List.cons_append, List.singleton_append,
          decodeFrom_of_pending (step_of_lead_pending hlead),
          decodeFrom_of_pending (step_of_owed hlow hhigh (by omega))]
        apply decodeFrom_of_char
        apply step_of_last <;> omega
      · obtain ⟨low, high, hlead, hlow, hhigh⟩ := lead_of_four (v := v) (by omega) (by omega)
        rw [if_neg hthree, List.cons_append, List.cons_append, List.cons_append,
          List.singleton_append, decodeFrom_of_pending (step_of_lead_pending hlead),
          decodeFrom_of_pending (step_of_owed hlow hhigh (by omega)),
          decodeFrom_of_pending (step_of_owed (by omega) (by omega) (by omega))]
        apply decodeFrom_of_char
        apply step_of_last <;> omega

theorem decodeItems_encode (text : List Char) : decodeItems (encode text) = text.map some := by
  induction text with
  | nil => rfl
  | cons c rest ih =>
      rw [encode, List.flatMap_cons, decodeItems, decodeFrom_encodeChar, List.map_cons]
      exact congrArg (some c :: ·) ih

/-- The bytes of a text are valid, and decode to it. -/
theorem decode?_encode (text : List Char) : decode? (encode text) = some text := by
  simp [decode?, decodeItems_encode, List.filterMap_map]

end Characters

section Bytes

variable {b : UInt8} {text : List Char}

/-- A byte below 128 is a character of its own. -/
theorem toNat_eq_of_mem_encodeChar (h : b ∈ String.utf8EncodeChar c) (hb : b.toNat < 128) :
    c.toNat = b.toNat := by
  obtain ⟨v, hv⟩ : ∃ v, v = c.toNat := ⟨_, rfl⟩
  have hvalid : v < 0xD800 ∨ 0xDFFF < v ∧ v < 0x110000 := hv ▸ c.valid
  have hval : c.val.toNat = v := hv.symm
  simp only [String.utf8EncodeChar, hval] at h
  rw [← hv]
  -- Every byte of a longer sequence is 128 or more.
  have hbytes : ∀ bytes : List Nat, (∀ n ∈ bytes, 128 ≤ n ∧ n < 256) →
      b ∉ bytes.map UInt8.ofNat := by
    intro bytes hall hmem
    obtain ⟨n, hn, rfl⟩ := List.mem_map.mp hmem
    obtain ⟨hlow, hhigh⟩ := hall n hn
    rw [toNat_ofNat_of_lt hhigh] at hb
    omega
  split at h
  · obtain rfl := List.mem_singleton.mp h
    exact (toNat_ofNat_of_lt (by omega)).symm
  · exfalso
    split at h
    · refine hbytes [_, _] ?_ h
      simp only [List.mem_cons, List.not_mem_nil, or_false]
      omega
    · split at h
      · refine hbytes [_, _, _] ?_ h
        simp only [List.mem_cons, List.not_mem_nil, or_false]
        omega
      · refine hbytes [_, _, _, _] ?_ h
        simp only [List.mem_cons, List.not_mem_nil, or_false]
        omega

theorem mem_of_mem_encode (h : b ∈ encode text) (hb : b.toNat < 128) :
    Char.ofNat b.toNat ∈ text := by
  obtain ⟨c, hc, hbyte⟩ := List.mem_flatMap.mp h
  rw [← toNat_eq_of_mem_encodeChar hbyte hb, Char.ofNat_toNat]
  exact hc

/-- The last byte of a text is below 128 only if it is its last character. -/
theorem getLast?_encode (h : (encode text).getLast? = some b) (hb : b.toNat < 128) :
    text.getLast? = some (Char.ofNat b.toNat) := by
  rcases List.eq_nil_or_concat text with rfl | ⟨before, c, rfl⟩
  · cases h
  · rw [List.concat_eq_append] at h ⊢
    have hlast : (String.utf8EncodeChar c).getLast? = some b := by
      simpa [encode, List.getLast?_append] using h
    have hcode := toNat_eq_of_mem_encodeChar (List.mem_of_getLast? hlast) hb
    rw [List.getLast?_concat, ← hcode, Char.ofNat_toNat]

theorem decodeLossy_encode (text : List Char) : decodeLossy (encode text) = text := by
  simp [decodeLossy, decodeItems_encode, Function.comp_def]

end Bytes

end Utf8

end ErrorFree
