import ErrorFree.Proofs.Binary64.Whole
import ErrorFree.Proofs.Heap.Write

/-!
# The addresses of the heap as numbers

**Target.**  `Heap.target` is the address that a write means, as a number: rounded down, never a
negative zero, and zero for what is not finite.

**Invariant.**  `Heap.Whole`: every resident address is representable, so that nothing is lost
between the integers by which the heap is ordered and the numbers it shows.

**Results.**
* `addresses_pairwise`: the addresses ascend strictly.
* `target_mem_addresses_iff`: an address is shown exactly if it is resident.
* `mem_cells_insert`: what is shown after a value has been put at an address.
-/

namespace ErrorFree

namespace Heap

open Binary64

/-- The address that is meant, as a number. -/
def target (address : Binary64) : Binary64 :=
  if address.isFinite then address.floor + zero else zero

/-- The resident addresses, ascending. -/
def addresses (h : Heap) : List Binary64 := h.cells.map Prod.fst

/-- Every resident address is a number. -/
def Whole (h : Heap) : Prop := ∀ k, k ∈ h.values → Representable k

theorem ofInt_normalize (a : Binary64) : ofInt (normalize a) = target a :=
  ofInt_floorInt a

theorem representable_normalize (a : Binary64) : Representable (normalize a) :=
  representable_floorInt a

section Invariant

theorem whole_empty (capacity : Nat) : (empty capacity).Whole := by
  intro k hk
  simp [empty] at hk

theorem whole_write {h : Heap} (hw : h.Whole) (a v : Binary64) : (h.write a v).Whole := by
  intro k hk
  rcases mem_of_mem_write hk with rfl | hold
  · exact representable_normalize a
  · exact hw k hold

end Invariant

section Cells

variable {h : Heap}

theorem addresses_eq (h : Heap) : h.addresses = h.values.keys.map ofInt := by
  rw [addresses, cells, ← Std.ExtTreeMap.map_fst_toList_eq_keys, List.map_map, List.map_map]
  rfl

theorem mem_cells_iff {a v : Binary64} :
    (a, v) ∈ h.cells ↔ ∃ k, ofInt k = a ∧ h.values[k]? = some v := by
  unfold cells
  rw [List.mem_map]
  constructor
  · rintro ⟨⟨k, w⟩, hmem, heq⟩
    obtain ⟨rfl, rfl⟩ := Prod.mk.inj heq
    exact ⟨k, rfl, Std.ExtTreeMap.mem_toList_iff_getElem?_eq_some.mp hmem⟩
  · rintro ⟨k, rfl, hk⟩
    exact ⟨(k, v), Std.ExtTreeMap.mem_toList_iff_getElem?_eq_some.mpr hk, rfl⟩

theorem mem_addresses_iff {a : Binary64} : a ∈ h.addresses ↔ ∃ k, k ∈ h.values ∧ ofInt k = a := by
  rw [addresses_eq, List.mem_map]
  constructor
  · rintro ⟨k, hk, heq⟩
    exact ⟨k, Std.ExtTreeMap.mem_keys.mp hk, heq⟩
  · rintro ⟨k, hk, heq⟩
    exact ⟨k, Std.ExtTreeMap.mem_keys.mpr hk, heq⟩

theorem addresses_pairwise (hw : h.Whole) : h.addresses.Pairwise fun a b => a.less b = true := by
  rw [addresses_eq, List.pairwise_map]
  apply List.Pairwise.imp_of_mem _ Std.ExtTreeMap.ordered_keys
  intro j k hj hk hlt
  have hj' := hw j (Std.ExtTreeMap.mem_keys.mp hj)
  have hk' := hw k (Std.ExtTreeMap.mem_keys.mp hk)
  rw [ofInt_less_iff hj' hk']
  exact Std.compare_eq_lt.mp hlt

/-- The address of a write is shown exactly if it is resident. -/
theorem target_mem_addresses_iff (hw : h.Whole) (a : Binary64) :
    target a ∈ h.addresses ↔ normalize a ∈ h.values := by
  rw [mem_addresses_iff, ← ofInt_normalize]
  constructor
  · rintro ⟨k, hk, heq⟩
    rwa [← ofInt_injOn (hw k hk) (representable_normalize a) heq]
  · intro hmem
    exact ⟨normalize a, hmem, rfl⟩

/-- What is shown after a value has been put at an address: that value there, all else as before. -/
theorem mem_cells_insert (hw : h.Whole) (a v b w : Binary64) :
    (b, w) ∈ cells { h with values := h.values.insert (normalize a) v } ↔
      if target a = b then v = w else (b, w) ∈ h.cells := by
  rw [mem_cells_iff, ← ofInt_normalize]
  simp only [getElem?_insert_eq]
  constructor
  · rintro ⟨k, rfl, hk⟩
    by_cases hkey : normalize a = k
    · rw [if_pos hkey] at hk
      rw [if_pos (by rw [hkey])]
      exact Option.some.inj hk
    · rw [if_neg hkey] at hk
      have hmem : k ∈ h.values := Std.ExtTreeMap.mem_iff_isSome_getElem?.mpr (by rw [hk]; rfl)
      rw [if_neg fun heq => hkey (ofInt_injOn (representable_normalize a) (hw k hmem) heq)]
      exact mem_cells_iff.mpr ⟨k, rfl, hk⟩
  · intro hb
    by_cases hkey : ofInt (normalize a) = b
    · rw [if_pos hkey] at hb
      exact ⟨normalize a, hkey, by rw [if_pos rfl, hb]⟩
    · rw [if_neg hkey] at hb
      obtain ⟨k, rfl, hk⟩ := mem_cells_iff.mp hb
      exact ⟨k, rfl, by rw [if_neg fun heq => hkey (by rw [heq])]; exact hk⟩

end Cells

end Heap

end ErrorFree
