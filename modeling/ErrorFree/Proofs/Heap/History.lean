import ErrorFree.Proofs.Heap.Addresses
import Mathlib.Data.List.Induction

/-!
# The heap and the history of its writes

**History.**  `Heap.after` is the heap after a list of writes from the empty heap on, the oldest
first.  `lastWritten` is the value last written at an address in a history.

**Refusal.**  A write is refused a new address if its address is not resident and the heap is full.
`exhausted_writeAll_iff`: a heap is exhausted exactly if a write was refused once.

**Result.**  `after_history`: what the heap holds after any history.
-/

namespace ErrorFree

namespace Heap

open Binary64

/-- The heap after a history of writes. -/
def after (capacity : Nat) (history : List (Binary64 × Binary64)) : Heap :=
  (empty capacity).writeAll history

/-- The value last written at an address. -/
def lastWritten (history : List (Binary64 × Binary64)) (address : Binary64) : Option Binary64 :=
  (history.reverse.find? fun w => decide (target w.1 = address)).map Prod.snd

section History

variable (capacity : Nat) (history : List (Binary64 × Binary64))

theorem after_concat (w : Binary64 × Binary64) :
    after capacity (history ++ [w]) = (after capacity history).write w.1 w.2 := by
  simp [after, writeAll]

theorem after_append (more : List (Binary64 × Binary64)) :
    after capacity (history ++ more) = (after capacity history).writeAll more :=
  List.foldl_append

theorem lastWritten_concat (w : Binary64 × Binary64) (address : Binary64) :
    lastWritten (history ++ [w]) address =
      if target w.1 = address then some w.2 else lastWritten history address := by
  unfold lastWritten
  rw [List.reverse_concat, List.find?_cons]
  by_cases h : target w.1 = address
  · simp [h]
  · simp [h]

theorem valid_after : (after capacity history).Valid :=
  valid_writeAll (valid_empty capacity) history

theorem whole_after : (after capacity history).Whole :=
  write_induction (P := Whole) (fun _ a v hw => whole_write hw a v) (whole_empty capacity) history

theorem capacity_after : (after capacity history).capacity = capacity :=
  capacity_writeAll (empty capacity) history

end History

section Exhaustion

variable {h : Heap}

/-- A write to a new address finds the heap full. -/
def Refused (h : Heap) (w : Binary64 × Binary64) : Prop :=
  normalize w.1 ∉ h.values ∧ h.length = h.capacity

theorem exhausted_write_iff (hv : h.Valid) (w : Binary64 × Binary64) :
    (h.write w.1 w.2).exhausted = true ↔ h.exhausted = true ∨ h.Refused w := by
  rcases write_cases h w.1 w.2 with ⟨hmem, heq⟩ | ⟨hnew, hex, hroom, heq⟩ | ⟨hnew, hfull, heq⟩
  · rw [heq]
    constructor
    · exact Or.inl
    · rintro (hex | ⟨hnew, _⟩)
      · exact hex
      · exact absurd hmem hnew
  · rw [heq]
    constructor
    · exact Or.inl
    · rintro (hex' | ⟨_, hfull⟩)
      · exact hex'
      · exact absurd hfull (Nat.ne_of_lt hroom)
  · rw [heq]
    constructor
    · intro _
      rcases hfull with hex | hcap
      · exact Or.inl hex
      · exact Or.inr ⟨hnew, Nat.le_antisymm hv.size_le hcap⟩
    · intro _
      rfl

/-- Once exhausted, for good. -/
theorem exhausted_writeAll (hv : h.Valid) (hex : h.exhausted = true)
    (writes : List (Binary64 × Binary64)) : (h.writeAll writes).exhausted = true := by
  induction writes generalizing h with
  | nil => exact hex
  | cons w writes ih =>
      exact ih (valid_write hv w.1 w.2) ((exhausted_write_iff hv w).mpr (Or.inl hex))

/-- A heap is exhausted exactly if it was so before, or a write was refused a new address. -/
theorem exhausted_writeAll_iff (hv : h.Valid) (writes : List (Binary64 × Binary64)) :
    (h.writeAll writes).exhausted = true ↔
      h.exhausted = true ∨
        ∃ before w later, writes = before ++ w :: later ∧ (h.writeAll before).Refused w := by
  induction writes generalizing h with
  | nil => simp [writeAll]
  | cons w writes ih =>
      have hrest := ih (valid_write hv w.1 w.2)
      rw [exhausted_write_iff hv] at hrest
      show ((h.write w.1 w.2).writeAll writes).exhausted = true ↔ _
      rw [hrest]
      constructor
      · rintro ((hex | hrefused) | ⟨before, w', later, rfl, hrefused⟩)
        · exact Or.inl hex
        · exact Or.inr ⟨[], w, writes, rfl, hrefused⟩
        · exact Or.inr ⟨w :: before, w', later, rfl, hrefused⟩
      · rintro (hex | ⟨before, w', later, heq, hrefused⟩)
        · exact Or.inl (Or.inl hex)
        · cases before with
          | nil =>
              obtain ⟨rfl, rfl⟩ := List.cons.inj heq
              exact Or.inl (Or.inr hrefused)
          | cons first before =>
              obtain ⟨rfl, rfl⟩ := List.cons.inj heq
              exact Or.inr ⟨before, w', later, rfl, hrefused⟩

/-- A refusal in terms of the addresses that are shown. -/
theorem refused_after_iff (capacity : Nat) (before : List (Binary64 × Binary64))
    (w : Binary64 × Binary64) :
    (after capacity before).Refused w ↔
      target w.1 ∉ (after capacity before).addresses ∧
        (after capacity before).length = capacity := by
  rw [Refused, target_mem_addresses_iff (whole_after capacity before), capacity_after]

theorem exhausted_after_iff (capacity : Nat) (history : List (Binary64 × Binary64)) :
    (after capacity history).exhausted = true ↔
      ∃ before w later, history = before ++ w :: later ∧
        target w.1 ∉ (after capacity before).addresses ∧
        (after capacity before).length = capacity := by
  simp only [← refused_after_iff]
  rw [after, exhausted_writeAll_iff (valid_empty capacity)]
  constructor
  · rintro (hex | hrefused)
    · cases hex
    · exact hrefused
  · exact Or.inr

end Exhaustion

section Contents

/-- A write that does not exhaust the heap puts its value at its address. -/
theorem write_of_not_exhausted {h : Heap} {a v : Binary64}
    (hex : (h.write a v).exhausted = false) :
    h.exhausted = false ∧ h.write a v = { h with values := h.values.insert (normalize a) v } := by
  rcases write_cases h a v with ⟨_, heq⟩ | ⟨_, hgrow, _, heq⟩ | ⟨_, _, heq⟩
  · rw [heq] at hex
    exact ⟨hex, heq⟩
  · exact ⟨hgrow, heq⟩
  · rw [heq] at hex
    cases hex

/-- Until it is exhausted the heap holds the last value written at each address. -/
theorem mem_cells_after_iff (capacity : Nat) (history : List (Binary64 × Binary64))
    (hex : (after capacity history).exhausted = false) (a v : Binary64) :
    (a, v) ∈ (after capacity history).cells ↔ lastWritten history a = some v := by
  -- From the last write on: it decides its own address, and leaves the others to those before.
  induction history using List.reverseRecOn with
  | nil => simp [after, writeAll, empty, cells, lastWritten]
  | append_singleton history w ih =>
      rw [after_concat] at hex ⊢
      obtain ⟨hbefore, heq⟩ := write_of_not_exhausted hex
      rw [heq, mem_cells_insert (whole_after capacity history), lastWritten_concat]
      by_cases hkey : target w.1 = a
      · simp [hkey]
      · simp only [hkey, if_false]
        exact ih hbefore

end Contents

/-- **The heap after any history.**  Whatever the capacity and the writes are, with addresses that
are not finite, negative zeros and fractions among them:

* the resident addresses ascend strictly, and each is a finite whole number and no negative zero;
* there are no more of them than the capacity allows;
* the heap is exhausted exactly if some write found it full and its address not resident;
* an exhausted heap stays exhausted and full, whatever is written later;
* until then it holds exactly the last value written at each address. -/
theorem after_history (capacity : Nat) (history : List (Binary64 × Binary64)) :
    ((after capacity history).addresses.Pairwise (fun a b => a.less b = true) ∧
      ∀ a ∈ (after capacity history).addresses,
        a.isFinite = true ∧ (∃ n : Int, a.units = n * unitsOfOne) ∧ a ≠ signedZero true) ∧
    (after capacity history).length ≤ capacity ∧
    ((after capacity history).exhausted = true ↔
      ∃ before w later, history = before ++ w :: later ∧
        target w.1 ∉ (after capacity before).addresses ∧
        (after capacity before).length = capacity) ∧
    ((after capacity history).exhausted = true → ∀ more,
      (after capacity (history ++ more)).exhausted = true ∧
        (after capacity (history ++ more)).length = capacity) ∧
    ((after capacity history).exhausted = false → ∀ a v,
      (a, v) ∈ (after capacity history).cells ↔ lastWritten history a = some v) := by
  refine ⟨⟨addresses_pairwise (whole_after capacity history), ?_⟩, ?_,
    exhausted_after_iff capacity history, ?_, mem_cells_after_iff capacity history⟩
  · intro a ha
    obtain ⟨k, hk, rfl⟩ := mem_addresses_iff.mp ha
    have hrep := whole_after capacity history k hk
    exact ⟨hrep.1, ⟨k, hrep.2⟩, ofInt_ne_negZero hrep⟩
  · have hle := (valid_after capacity history).size_le
    rwa [capacity_after] at hle
  · intro hex more
    have hex' : (after capacity (history ++ more)).exhausted = true := by
      rw [after_append]
      exact exhausted_writeAll (valid_after capacity history) hex more
    refine ⟨hex', ?_⟩
    have hfull := (valid_after capacity (history ++ more)).full hex'
    rwa [capacity_after] at hfull

end Heap

end ErrorFree
