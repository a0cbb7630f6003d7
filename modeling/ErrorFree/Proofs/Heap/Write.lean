import ErrorFree.Heap

/-!
# Writing to the heap

**Cases.**  A write finds its address resident, finds room for it, or displaces another address.
`write_cases` says what each of them does; the other facts about writes are read off from it.

**Invariant.**  `Heap.Valid`: no more addresses are resident than the capacity allows, and an
exhausted heap is full.
-/

namespace ErrorFree

namespace Heap

/-- The heap holds no more than it may, and all it may once it is exhausted. -/
structure Valid (h : Heap) : Prop where
  size_le : h.values.size ≤ h.capacity
  full : h.exhausted = true → h.values.size = h.capacity

/-- The heap after writes of values to addresses, one after the other. -/
def writeAll (h : Heap) (writes : List (Binary64 × Binary64)) : Heap :=
  writes.foldl (fun h w => h.write w.1 w.2) h

section Residents

variable {values : Std.ExtTreeMap Int Binary64} {address : Int}

theorem size_insert_of_mem (h : address ∈ values) (v : Binary64) :
    (values.insert address v).size = values.size := by
  rw [Std.ExtTreeMap.size_insert, if_pos (Std.ExtTreeMap.mem_iff_contains.mp h)]

theorem size_insert_of_not_mem (h : address ∉ values) (v : Binary64) :
    (values.insert address v).size = values.size + 1 := by
  rw [Std.ExtTreeMap.size_insert, if_neg (by simpa using h)]

theorem size_erase_of_mem (h : address ∈ values) :
    (values.erase address).size + 1 = values.size := by
  have hne : values.size ≠ 0 := by
    intro hzero
    rw [← Std.ExtTreeMap.eq_empty_iff_size_eq_zero] at hzero
    simp [hzero] at h
  rw [Std.ExtTreeMap.size_erase, if_pos (Std.ExtTreeMap.mem_iff_contains.mp h)]
  omega

theorem mem_insert_iff {k : Int} {v : Binary64} :
    k ∈ values.insert address v ↔ k = address ∨ k ∈ values := by
  rw [Std.ExtTreeMap.mem_insert, Std.LawfulEqCmp.compare_eq_iff_eq, eq_comm]

theorem getElem?_insert_eq (values : Std.ExtTreeMap Int Binary64) (address k : Int)
    (v : Binary64) :
    (values.insert address v)[k]? = if address = k then some v else values[k]? := by
  simp only [Std.ExtTreeMap.getElem?_insert, Std.LawfulEqCmp.compare_eq_iff_eq]

end Residents

section Displace

variable {values : Std.ExtTreeMap Int Binary64} {address : Int} {v : Binary64}

/-- The victim is one of the extremes. -/
theorem victim_eq (address low high : Int) :
    victim address low high = low ∨ victim address low high = high := by
  unfold victim
  split
  · exact Or.inl rfl
  · exact Or.inr rfl

/-- Either nothing is resident, and nothing changes, or a resident address makes room. -/
theorem displace_cases (address : Int) (v : Binary64) (values : Std.ExtTreeMap Int Binary64) :
    (values = ∅ ∧ displace address v values = values) ∨
    (∃ gone, gone ∈ values ∧ displace address v values = (values.erase gone).insert address v) := by
  unfold displace
  cases hmin : values.minKey? with
  | none =>
      left
      exact ⟨Std.ExtTreeMap.minKey?_eq_none_iff.mp hmin, rfl⟩
  | some low =>
      cases hmax : values.maxKey? with
      | none =>
          left
          exact ⟨Std.ExtTreeMap.maxKey?_eq_none_iff.mp hmax, rfl⟩
      | some high =>
          right
          refine ⟨victim address low high, ?_, rfl⟩
          rcases victim_eq address low high with hlow | hhigh
          · rw [hlow]
            exact Std.ExtTreeMap.minKey?_mem hmin
          · rw [hhigh]
            exact Std.ExtTreeMap.maxKey?_mem hmax

/-- A new address takes the place of another: the number of addresses stays. -/
theorem size_displace (hnew : address ∉ values) :
    (displace address v values).size = values.size := by
  rcases displace_cases address v values with ⟨_, heq⟩ | ⟨gone, hgone, heq⟩
  · rw [heq]
  · have hnew' : address ∉ values.erase gone := fun hmem =>
      hnew (Std.ExtTreeMap.mem_of_mem_erase hmem)
    rw [heq, size_insert_of_not_mem hnew', size_erase_of_mem hgone]

end Displace

section Write

/-- A write replaces a value, adds an address, or displaces one. -/
theorem write_cases (h : Heap) (a v : Binary64) :
    (normalize a ∈ h.values ∧
      h.write a v = { h with values := h.values.insert (normalize a) v }) ∨
    (normalize a ∉ h.values ∧ h.exhausted = false ∧ h.values.size < h.capacity ∧
      h.write a v = { h with values := h.values.insert (normalize a) v }) ∨
    (normalize a ∉ h.values ∧ (h.exhausted = true ∨ h.capacity ≤ h.values.size) ∧
      h.write a v =
        { h with values := displace (normalize a) v h.values, exhausted := true }) := by
  by_cases hmem : normalize a ∈ h.values
  · left
    exact ⟨hmem, by simp [write, hmem]⟩
  · by_cases hroom : h.exhausted = false ∧ h.values.size < h.capacity
    · right; left
      exact ⟨hmem, hroom.1, hroom.2, by simp [write, hmem, hroom]⟩
    · right; right
      refine ⟨hmem, ?_, by simp [write, hmem, hroom]⟩
      cases hex : h.exhausted with
      | true => exact Or.inl rfl
      | false => exact Or.inr (by simpa [hex] using hroom)

variable {h : Heap}

/-- A write makes no other address resident than its own. -/
theorem mem_of_mem_write {a v : Binary64} {k : Int} (hk : k ∈ (h.write a v).values) :
    k = normalize a ∨ k ∈ h.values := by
  rcases write_cases h a v with ⟨_, heq⟩ | ⟨_, _, _, heq⟩ | ⟨_, _, heq⟩
  · rw [heq] at hk
    exact mem_insert_iff.mp hk
  · rw [heq] at hk
    exact mem_insert_iff.mp hk
  · rw [heq] at hk
    rcases displace_cases (normalize a) v h.values with ⟨_, hsame⟩ | ⟨gone, _, hdis⟩
    · right
      rwa [hsame] at hk
    · rw [hdis] at hk
      rcases mem_insert_iff.mp hk with hnew | hold
      · exact Or.inl hnew
      · exact Or.inr (Std.ExtTreeMap.mem_of_mem_erase hold)

theorem capacity_write (h : Heap) (a v : Binary64) : (h.write a v).capacity = h.capacity := by
  rcases write_cases h a v with ⟨_, heq⟩ | ⟨_, _, _, heq⟩ | ⟨_, _, heq⟩
  · rw [heq]
  · rw [heq]
  · rw [heq]

/-- A valid heap that has no room for a new address is full. -/
theorem Valid.size_eq (hv : h.Valid) (hfull : h.exhausted = true ∨ h.capacity ≤ h.values.size) :
    h.values.size = h.capacity := by
  rcases hfull with hex | hcap
  · exact hv.full hex
  · exact Nat.le_antisymm hv.size_le hcap

theorem valid_empty (capacity : Nat) : (empty capacity).Valid where
  size_le := by simp [empty]
  full := by simp [empty]

theorem valid_write (hv : h.Valid) (a v : Binary64) : (h.write a v).Valid := by
  rcases write_cases h a v with ⟨hmem, heq⟩ | ⟨hnew, hex, hroom, heq⟩ | ⟨hnew, hfull, heq⟩
  · rw [heq]
    refine ⟨?_, ?_⟩
    · simpa only [size_insert_of_mem hmem] using hv.size_le
    · simpa only [size_insert_of_mem hmem] using hv.full
  · rw [heq]
    refine ⟨?_, fun hring => ?_⟩
    · simp only [size_insert_of_not_mem hnew]
      exact hroom
    · simp [hex] at hring
  · have hsize : (displace (normalize a) v h.values).size = h.capacity := by
      rw [size_displace hnew, hv.size_eq hfull]
    rw [heq]
    exact ⟨Nat.le_of_eq hsize, fun _ => hsize⟩

end Write

section Writes

/-- What a write keeps, every list of writes keeps. -/
theorem write_induction {P : Heap → Prop} (hwrite : ∀ h a v, P h → P (h.write a v)) {h : Heap}
    (hP : P h) (writes : List (Binary64 × Binary64)) : P (h.writeAll writes) := by
  induction writes generalizing h with
  | nil => exact hP
  | cons w writes ih => exact ih (hwrite h w.1 w.2 hP)

theorem capacity_writeAll (h : Heap) (writes : List (Binary64 × Binary64)) :
    (h.writeAll writes).capacity = h.capacity := by
  refine write_induction (P := fun t => t.capacity = h.capacity) ?_ rfl writes
  intro t a v ht
  rw [capacity_write, ht]

theorem valid_writeAll {h : Heap} (hv : h.Valid) (writes : List (Binary64 × Binary64)) :
    (h.writeAll writes).Valid :=
  write_induction (P := Valid) (fun _ a v ht => valid_write ht a v) hv writes

end Writes

end Heap

end ErrorFree
