import ErrorFree.Proofs.Binary64.Value
import ErrorFree.Proofs.Heap.History

/-!
# What a write changes

**Eviction.**  `evicted?` is the resident address that makes room for another one, if that is not
resident and the heap is full.  With it one equation says what every address holds after a write
(`getElem?_write`): the address of the write holds its value, the evicted one nothing, and all others
what they held before.

**Numbers.**  `Evicts` says the same of the addresses that the heap shows: one was shown before the
write and is not shown after it (`evicts_iff`).

**Result.**  `write_frame`: what reading any number gives after a write.
-/

namespace ErrorFree

namespace Heap

open Binary64

/-- The resident address that makes room for an address. -/
def evicted? (h : Heap) (address : Int) : Option Int :=
  if address ∈ h.values ∨ h.length < h.capacity then none
  else
    match h.values.minKey?, h.values.maxKey? with
    | some low, some high => some (victim address low high)
    | _, _ => none

/-- The heap is valid, its addresses are numbers, and there is room for at least one. -/
structure InUse (h : Heap) : Prop where
  valid : h.Valid
  whole : h.Whole
  room : 0 < h.capacity

/-- The write of `v` to `a` takes the address `e` away. -/
def Evicts (h : Heap) (a v e : Binary64) : Prop :=
  e ∈ h.addresses ∧ e ∉ (h.write a v).addresses

section Extremes

variable {values : Std.ExtTreeMap Int Binary64} {low high : Int}

theorem minKey?_eq_some_iff :
    values.minKey? = some low ↔ low ∈ values ∧ ∀ k ∈ values, low ≤ k := by
  simp only [Std.ExtTreeMap.minKey?_eq_some_iff_mem_and_forall, Std.isLE_compare]

theorem maxKey?_eq_some_iff :
    values.maxKey? = some high ↔ high ∈ values ∧ ∀ k ∈ values, k ≤ high := by
  simp only [Std.ExtTreeMap.maxKey?_eq_some_iff_mem_and_forall, Std.isLE_compare]

theorem exists_extremes (h : 0 < values.size) :
    ∃ low high, values.minKey? = some low ∧ values.maxKey? = some high := by
  have hne : values ≠ ∅ := by
    rintro rfl
    cases h
  obtain ⟨low, hlow⟩ := Option.ne_none_iff_exists'.mp
    (mt Std.ExtTreeMap.minKey?_eq_none_iff.mp hne)
  obtain ⟨high, hhigh⟩ := Option.ne_none_iff_exists'.mp
    (mt Std.ExtTreeMap.maxKey?_eq_none_iff.mp hne)
  exact ⟨low, high, hlow, hhigh⟩

end Extremes

section Evicted

variable {h : Heap} {address k low high : Int}

theorem exists_extremes_of_full (hpos : 0 < h.capacity) (hfull : h.length = h.capacity) :
    ∃ low high, h.values.minKey? = some low ∧ h.values.maxKey? = some high :=
  exists_extremes (Nat.lt_of_lt_of_eq hpos hfull.symm)

theorem evicted?_of_room (hroom : address ∈ h.values ∨ h.length < h.capacity) :
    h.evicted? address = none := if_pos hroom

theorem evicted?_of_full (hnew : address ∉ h.values) (hfull : h.length = h.capacity)
    (hlow : h.values.minKey? = some low) (hhigh : h.values.maxKey? = some high) :
    h.evicted? address = some (victim address low high) := by
  have hroom : ¬ (address ∈ h.values ∨ h.length < h.capacity) := by
    rintro (hmem | hlt)
    · exact hnew hmem
    · exact Nat.ne_of_lt hlt hfull
  rw [evicted?, if_neg hroom, hlow, hhigh]

/-- What is evicted is an extreme resident address, and only if there is no room for a new one. -/
theorem evicted?_eq_some (hv : h.Valid) (hk : h.evicted? address = some k) :
    address ∉ h.values ∧ h.length = h.capacity ∧
      (h.values.minKey? = some k ∨ h.values.maxKey? = some k) := by
  unfold evicted? at hk
  split at hk
  · cases hk
  · rename_i hroom
    rw [not_or, Nat.not_lt] at hroom
    refine ⟨hroom.1, Nat.le_antisymm hv.size_le hroom.2, ?_⟩
    split at hk
    · rename_i low high hlow hhigh
      obtain rfl := Option.some.inj hk
      rcases victim_eq address low high with heq | heq
      · left
        rw [hlow, heq]
      · right
        rw [hhigh, heq]
    · cases hk

theorem mem_of_evicted? (hv : h.Valid) (hk : h.evicted? address = some k) : k ∈ h.values := by
  rcases (evicted?_eq_some hv hk).2.2 with hlow | hhigh
  · exact Std.ExtTreeMap.minKey?_mem hlow
  · exact Std.ExtTreeMap.maxKey?_mem hhigh

/-- An address is evicted exactly if a new one finds the heap full. -/
theorem evicted?_isSome_iff (hv : h.Valid) (hpos : 0 < h.capacity) :
    (∃ k, h.evicted? address = some k) ↔ address ∉ h.values ∧ h.length = h.capacity := by
  constructor
  · rintro ⟨k, hk⟩
    obtain ⟨hnew, hfull, -⟩ := evicted?_eq_some hv hk
    exact ⟨hnew, hfull⟩
  · rintro ⟨hnew, hfull⟩
    obtain ⟨low, high, hlow, hhigh⟩ := exists_extremes_of_full hpos hfull
    exact ⟨_, evicted?_of_full hnew hfull hlow hhigh⟩

/-- **What every address holds after a write.** -/
theorem getElem?_write (hv : h.Valid) (hpos : 0 < h.capacity) (a v : Binary64) (k : Int) :
    (h.write a v).values[k]? =
      if normalize a = k then some v
      else if h.evicted? (normalize a) = some k then none
      else h.values[k]? := by
  rcases write_cases h a v with ⟨hmem, heq⟩ | ⟨hnew, hex, hroom, heq⟩ | ⟨hnew, hfull, heq⟩
  · rw [heq, evicted?_of_room (Or.inl hmem)]
    exact getElem?_insert_eq _ _ _ _
  · rw [heq, evicted?_of_room (Or.inr hroom)]
    exact getElem?_insert_eq _ _ _ _
  · have hlength : h.length = h.capacity := hv.size_eq hfull
    obtain ⟨low, high, hlow, hhigh⟩ := exists_extremes_of_full hpos hlength
    rw [heq, evicted?_of_full hnew hlength hlow hhigh]
    simp only [displace, hlow, hhigh, getElem?_insert_eq, Std.ExtTreeMap.getElem?_erase,
      Std.LawfulEqCmp.compare_eq_iff_eq, Option.some.injEq]

theorem mem_write_iff (hv : h.Valid) (hpos : 0 < h.capacity) (a v : Binary64) (k : Int) :
    k ∈ (h.write a v).values ↔
      k = normalize a ∨ k ∈ h.values ∧ h.evicted? (normalize a) ≠ some k := by
  rw [Std.ExtTreeMap.mem_iff_isSome_getElem?, getElem?_write hv hpos,
    Std.ExtTreeMap.mem_iff_isSome_getElem?]
  by_cases hself : normalize a = k
  · simp [hself]
  · by_cases hgone : h.evicted? (normalize a) = some k
    · simp [hself, hgone, Ne.symm hself]
    · simp [hself, hgone, Ne.symm hself]

end Evicted

section Numbers

variable {h : Heap} {a v e : Binary64}

theorem inUse_after {capacity : Nat} (hpos : 1 ≤ capacity) (history : List (Binary64 × Binary64)) :
    (after capacity history).InUse where
  valid := valid_after capacity history
  whole := whole_after capacity history
  room := (capacity_after capacity history).symm ▸ hpos

/-- What is evicted, as a number. -/
theorem evicts_iff (hu : h.InUse) :
    h.Evicts a v e ↔ ∃ k, h.evicted? (normalize a) = some k ∧ ofInt k = e := by
  constructor
  · rintro ⟨hbefore, hafter⟩
    obtain ⟨k, hk, rfl⟩ := mem_addresses_iff.mp hbefore
    refine ⟨k, ?_, rfl⟩
    -- What is not evicted stays.
    by_contra hkept
    have hmem := (mem_write_iff hu.valid hu.room a v k).mpr (Or.inr ⟨hk, hkept⟩)
    exact hafter (mem_addresses_iff.mpr ⟨k, hmem, rfl⟩)
  · rintro ⟨k, hk, rfl⟩
    have hmem := mem_of_evicted? hu.valid hk
    refine ⟨mem_addresses_iff.mpr ⟨k, hmem, rfl⟩, fun hafter => ?_⟩
    obtain ⟨j, hj, heq⟩ := mem_addresses_iff.mp hafter
    obtain rfl := ofInt_injOn (whole_write hu.whole a v j hj) (hu.whole k hmem) heq
    rcases (mem_write_iff hu.valid hu.room a v j).mp hj with rfl | ⟨-, hkept⟩
    · exact (evicted?_eq_some hu.valid hk).1 hmem
    · exact hkept hk

theorem evicts_iff_of_evicted? {k : Int} (hu : h.InUse)
    (hk : h.evicted? (normalize a) = some k) : h.Evicts a v e ↔ ofInt k = e := by
  rw [evicts_iff hu, hk]
  simp only [Option.some.injEq, exists_eq_left']

theorem evicts_unique {e' : Binary64} (hu : h.InUse) (he : h.Evicts a v e)
    (he' : h.Evicts a v e') : e = e' := by
  obtain ⟨k, hk, rfl⟩ := (evicts_iff hu).mp he
  obtain ⟨j, hj, rfl⟩ := (evicts_iff hu).mp he'
  rw [Option.some.inj (hk.symm.trans hj)]

theorem evicts_extreme (hu : h.InUse) (he : h.Evicts a v e) :
    (h.min? = some e ∨ h.max? = some e) ∧ e ≠ target a := by
  obtain ⟨k, hk, rfl⟩ := (evicts_iff hu).mp he
  obtain ⟨hnew, -, hextreme⟩ := evicted?_eq_some hu.valid hk
  have hmem := mem_of_evicted? hu.valid hk
  constructor
  · exact hextreme.imp (congrArg (Option.map ofInt)) (congrArg (Option.map ofInt))
  · rw [← ofInt_normalize]
    exact fun heq => hnew (ofInt_injOn (hu.whole k hmem) (representable_normalize a) heq ▸ hmem)

theorem exists_evicts_iff (hu : h.InUse) :
    (∃ e, h.Evicts a v e) ↔ target a ∉ h.addresses ∧ h.length = h.capacity := by
  rw [target_mem_addresses_iff hu.whole, ← evicted?_isSome_iff hu.valid hu.room]
  constructor
  · rintro ⟨e, he⟩
    obtain ⟨k, hk, -⟩ := (evicts_iff hu).mp he
    exact ⟨k, hk⟩
  · rintro ⟨k, hk⟩
    exact ⟨ofInt k, (evicts_iff hu).mpr ⟨k, hk, rfl⟩⟩

theorem read_of_isFinite {b : Binary64} (hb : b.isFinite = true) :
    h.read b = h.values[normalize b]?.getD zero := by
  rw [read, if_pos hb, Std.ExtTreeMap.getD_eq_getD_getElem?]

theorem read_of_not_isFinite {b : Binary64} (hb : b.isFinite = false) : h.read b = zero := by
  rw [read, hb]
  exact if_neg Bool.false_ne_true

end Numbers

section Reads

variable {h : Heap} {a v b e : Binary64}

/-- What a number reads after a write. -/
theorem read_write (hu : h.InUse) (hb : b.isFinite = true) :
    (h.write a v).read b =
      if normalize a = normalize b then v
      else if h.evicted? (normalize a) = some (normalize b) then zero
      else h.read b := by
  rw [read_of_isFinite hb, read_of_isFinite hb, getElem?_write hu.valid hu.room]
  split
  · rfl
  · split <;> rfl

theorem read_write_self (hu : h.InUse) (hb : b.floor.equal (target a) = true) :
    (h.write a v).read b = v := by
  rw [← ofInt_normalize, floor_equal_ofInt_iff (representable_normalize a)] at hb
  rw [read_write hu hb.1]
  exact if_pos hb.2.symm

theorem read_write_evicted (hu : h.InUse) (he : h.Evicts a v e) (hb : b.floor.equal e = true) :
    (h.write a v).read b = zero := by
  obtain ⟨k, hk, rfl⟩ := (evicts_iff hu).mp he
  have hmem := mem_of_evicted? hu.valid hk
  obtain ⟨hfinite, rfl⟩ := (floor_equal_ofInt_iff (hu.whole k hmem)).mp hb
  have hne : normalize a ≠ b.floorInt := fun heq => (evicted?_eq_some hu.valid hk).1 (heq ▸ hmem)
  rw [read_write hu hfinite]
  exact (if_neg hne).trans (if_pos hk)

theorem read_write_other (hu : h.InUse)
    (hb : b.floor.equal (target a) = false) (hkept : ∀ e, h.Evicts a v e → b.floor.equal e = false) :
    (h.write a v).read b = h.read b := by
  cases hfinite : b.isFinite with
  | false => rw [read_of_not_isFinite hfinite, read_of_not_isFinite hfinite]
  | true =>
      have hne : normalize a ≠ normalize b := by
        intro heq
        rw [← ofInt_normalize, (floor_equal_ofInt_iff (representable_normalize a)).mpr
          ⟨hfinite, heq.symm⟩] at hb
        cases hb
      have hgone : h.evicted? (normalize a) ≠ some (normalize b) := by
        intro hk
        have hequal := hkept _ ((evicts_iff hu).mpr ⟨_, hk, rfl⟩)
        rw [(floor_equal_ofInt_iff (representable_normalize b)).mpr ⟨hfinite, rfl⟩] at hequal
        cases hequal
      rw [read_write hu hfinite, if_neg hne, if_neg hgone]

end Reads

/-- **What a write changes.**  In every heap that writes lead to, with room for at least one address,
after writing `v` to `a`:

* a number that is rounded down to the address of the write reads `v`;
* one that is rounded down to an evicted address reads zero;
* every other number reads as before, and what is not finite reads zero before and after;
* no more than one address is evicted; it was the lowest or the highest and is not the address of
  the write;
* one is evicted exactly if the address of the write was not resident and the heap was full. -/
theorem write_frame (capacity : Nat) (hpos : 1 ≤ capacity) (history : List (Binary64 × Binary64))
    (a v : Binary64) :
    (∀ b, b.floor.equal (target a) = true → ((after capacity history).write a v).read b = v) ∧
    (∀ e, (after capacity history).Evicts a v e → ∀ b, b.floor.equal e = true →
      ((after capacity history).write a v).read b = zero) ∧
    (∀ b, b.floor.equal (target a) = false →
      (∀ e, (after capacity history).Evicts a v e → b.floor.equal e = false) →
      ((after capacity history).write a v).read b = (after capacity history).read b) ∧
    (∀ b, b.isFinite = false → (after capacity history).read b = zero ∧
      ((after capacity history).write a v).read b = zero) ∧
    (∀ e e', (after capacity history).Evicts a v e → (after capacity history).Evicts a v e' →
      e = e') ∧
    (∀ e, (after capacity history).Evicts a v e →
      ((after capacity history).min? = some e ∨ (after capacity history).max? = some e) ∧
        e ≠ target a) ∧
    ((∃ e, (after capacity history).Evicts a v e) ↔
      target a ∉ (after capacity history).addresses ∧
        (after capacity history).length = capacity) := by
  have hu := inUse_after hpos history
  refine ⟨fun b => read_write_self hu, fun e he b => read_write_evicted hu he,
    fun b => read_write_other hu,
    fun b hb => ⟨read_of_not_isFinite hb, read_of_not_isFinite hb⟩,
    fun e e' => evicts_unique hu, fun e he => evicts_extreme hu he, ?_⟩
  rw [exists_evicts_iff hu, capacity_after]

/-- Minus one half is held at minus one.  A write to what is no number goes to zero, so that a
negative zero reads it; there is room for one address only, and minus one half reads zero. -/
theorem write_frame_negative_zero :
    1 ≤ 1 ∧ (after 1 [(.finite true 1 1073 (by decide), one)]).addresses = [negOne] ∧
    ((after 1 [(.finite true 1 1073 (by decide), one)]).write .nan negOne).read (signedZero true) =
      negOne ∧
    (after 1 [(.finite true 1 1073 (by decide), one)]).Evicts .nan negOne negOne ∧
    ((after 1 [(.finite true 1 1073 (by decide), one)]).write .nan negOne).read
      (.finite true 1 1073 (by decide)) = zero := by
  have haddresses : (after 1 [(.finite true 1 1073 (by decide), one)]).addresses = [negOne] := by
    decide
  obtain ⟨hself, hgone, -, -, -, -, hiff⟩ :=
    write_frame 1 (Nat.le_refl 1) [(.finite true 1 1073 (by decide), one)] .nan negOne
  obtain ⟨e, he⟩ := hiff.mpr ⟨haddresses ▸ by decide, by decide⟩
  obtain rfl : e = negOne := List.mem_singleton.mp (haddresses ▸ he.1)
  exact ⟨Nat.le_refl 1, haddresses, hself _ (by decide), he, hgone _ he _ (by decide)⟩

end Heap

end ErrorFree
