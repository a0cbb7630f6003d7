import ErrorFree.Stack

/-!
# The cells of the stack as a ring

**Invariant.**  `Stack.Valid` ties the write position and the length to the cells, in both modes:

* a growing stack has its values in the first cells, in front of the write position;
* an exhausted stack has all the cells it may have, and the write position is one of them, unless
  there are none.

**View.**  `Stack.contents` lists the values that can be popped, the top first.  The value at depth
`k` is in the cell `k + 1` places behind the write position, around the ring.

**Results.**
* `valid_push`, `valid_drop`: the invariant is kept.
* `contents_push`, `contents_drop`, `top_eq_headD`: on the contents, a push puts a value in front
  and cuts the list off at the capacity, and a pop takes the first value.
-/

namespace ErrorFree

namespace Stack

/-- The write position and the length fit the cells. -/
structure Valid (s : Stack) : Prop where
  growing : s.exhausted = false →
    s.pos = s.avail ∧ s.avail ≤ s.cells.size ∧ s.cells.size ≤ s.capacity
  ring : s.exhausted = true →
    s.cells.size = s.capacity ∧ s.avail ≤ s.cells.size ∧
      (s.capacity ≠ 0 → s.pos < s.cells.size)

/-- The cell `k + 1` places behind a position of a ring. -/
def behind (pos size k : Nat) : Nat :=
  if k < pos then pos - 1 - k else pos + size - 1 - k

/-- The value at depth `k`. -/
def valueAt (s : Stack) (k : Nat) : Binary64 :=
  s.cells.getD (behind s.pos s.cells.size k) Binary64.zero

/-- The values that can be popped, the top first. -/
def contents (s : Stack) : List Binary64 :=
  (List.range s.avail).map s.valueAt

section Positions

variable {pos size k : Nat}

/-- A position of the ring moves on by one, and from the last cell to the first. -/
theorem succ_mod_eq (h : pos < size) :
    (pos + 1) % size = if pos + 1 = size then 0 else pos + 1 := by
  split
  · rename_i heq
    rw [heq, Nat.mod_self]
  · exact Nat.mod_eq_of_lt (by omega)

theorem behind_succ_mod_zero (h : pos < size) : behind ((pos + 1) % size) size 0 = pos := by
  rw [succ_mod_eq h, behind]
  split <;> split <;> omega

theorem behind_succ_mod_succ (h : pos < size) (hk : k + 1 < size) :
    behind ((pos + 1) % size) size (k + 1) = behind pos size k := by
  rw [succ_mod_eq h, behind, behind]
  split <;> split <;> split <;> omega

/-- What lies behind a position by less than a full turn is another cell. -/
theorem behind_ne (hk : k + 1 < size) : pos ≠ behind pos size k := by
  unfold behind
  split <;> omega

end Positions

section Steps

variable {s : Stack} {v : Binary64}

/-- A push uses a cell again, takes a new one, overwrites, or exhausts the stack and overwrites. -/
theorem push_cases (s : Stack) (v : Binary64) :
    (s.exhausted = false ∧ s.pos < s.cells.size ∧
      s.push v = { s with
        cells := s.cells.setIfInBounds s.pos v, avail := s.avail + 1, pos := s.pos + 1 }) ∨
    (s.exhausted = false ∧ s.cells.size ≤ s.pos ∧ s.cells.size < s.capacity ∧
      s.push v = { s with
        cells := s.cells.push v, avail := s.avail + 1, pos := s.pos + 1 }) ∨
    (s.exhausted = false ∧ s.cells.size ≤ s.pos ∧ s.capacity ≤ s.cells.size ∧
      s.push v = { s with exhausted := true, pos := 0 }.overwrite v) ∨
    (s.exhausted = true ∧ s.push v = s.overwrite v) := by
  cases hex : s.exhausted with
  | true =>
      right; right; right
      exact ⟨rfl, by simp [push, hex]⟩
  | false =>
      by_cases hpos : s.pos < s.cells.size
      · left
        exact ⟨rfl, hpos, by simp [push, hex, hpos]⟩
      · by_cases hcap : s.cells.size < s.capacity
        · right; left
          exact ⟨rfl, by omega, hcap, by simp [push, hex, hpos, hcap]⟩
        · right; right; left
          exact ⟨rfl, by omega, by omega, by simp [push, hex, hpos, hcap]⟩

theorem overwrite_of_size_eq_zero (h : s.cells.size = 0) : s.overwrite v = s := by
  simp [overwrite, h]

theorem overwrite_of_size_pos (h : 0 < s.cells.size) :
    s.overwrite v =
      { s with
        cells := s.cells.setIfInBounds s.pos v
        avail := min (s.avail + 1) s.cells.size
        pos := (s.pos + 1) % s.cells.size } := by
  have hne : s.cells.size ≠ 0 := by omega
  simp [overwrite, hne]

theorem capacity_overwrite (s : Stack) (v : Binary64) : (s.overwrite v).capacity = s.capacity := by
  unfold overwrite
  split <;> rfl

theorem exhausted_overwrite (s : Stack) (v : Binary64) :
    (s.overwrite v).exhausted = s.exhausted := by
  unfold overwrite
  split <;> rfl

theorem size_overwrite (s : Stack) (v : Binary64) :
    (s.overwrite v).cells.size = s.cells.size := by
  unfold overwrite
  split
  · rfl
  · exact Array.size_setIfInBounds

/-- A push that leaves the stack growing uses a cell again, or takes a new one. -/
theorem push_cases_of_growing (h : (s.push v).exhausted = false) :
    s.exhausted = false ∧
    ((s.pos < s.cells.size ∧
      s.push v = { s with
        cells := s.cells.setIfInBounds s.pos v, avail := s.avail + 1, pos := s.pos + 1 }) ∨
    (s.cells.size ≤ s.pos ∧ s.cells.size < s.capacity ∧
      s.push v = { s with
        cells := s.cells.push v, avail := s.avail + 1, pos := s.pos + 1 })) := by
  rcases push_cases s v with ⟨hex, hpos, heq⟩ | ⟨hex, hpos, hcap, heq⟩ | ⟨_, _, _, heq⟩ |
      ⟨hex, heq⟩
  · exact ⟨hex, Or.inl ⟨hpos, heq⟩⟩
  · exact ⟨hex, Or.inr ⟨hpos, hcap, heq⟩⟩
  · rw [heq, exhausted_overwrite] at h
    cases h
  · rw [heq, exhausted_overwrite, hex] at h
    cases h

theorem capacity_push (s : Stack) (v : Binary64) : (s.push v).capacity = s.capacity := by
  rcases push_cases s v with ⟨_, _, heq⟩ | ⟨_, _, _, heq⟩ | ⟨_, _, _, heq⟩ | ⟨_, heq⟩
  · rw [heq]
  · rw [heq]
  · rw [heq]
    exact capacity_overwrite _ v
  · rw [heq]
    exact capacity_overwrite s v

theorem capacity_drop (s : Stack) : s.drop.capacity = s.capacity := by
  unfold drop
  split <;> rfl

end Steps

section Invariant

variable {s : Stack}

theorem valid_empty (capacity : Nat) : (empty capacity).Valid where
  growing := by simp [empty]
  ring := by simp [empty]

/-- In both modes no more values can be popped than there are cells, and no more cells are in use
than the capacity allows. -/
theorem Valid.avail_le (h : s.Valid) : s.avail ≤ s.cells.size := by
  cases hex : s.exhausted with
  | false => exact (h.growing hex).2.1
  | true => exact (h.ring hex).2.1

theorem Valid.size_le (h : s.Valid) : s.cells.size ≤ s.capacity := by
  cases hex : s.exhausted with
  | false => exact (h.growing hex).2.2
  | true => exact Nat.le_of_eq (h.ring hex).1

theorem Valid.length_le (h : s.Valid) : s.length ≤ s.capacity :=
  Nat.le_trans h.avail_le h.size_le

/-- In both modes the write position is at most one place behind the last cell. -/
theorem Valid.pos_le (h : s.Valid) (hsize : 0 < s.cells.size) : s.pos ≤ s.cells.size := by
  cases hex : s.exhausted with
  | false =>
      obtain ⟨hpos, havail, _⟩ := h.growing hex
      omega
  | true =>
      obtain ⟨hsize', _, hpos⟩ := h.ring hex
      exact Nat.le_of_lt (hpos (by omega))

/-- Overwriting keeps an exhausted stack valid. -/
theorem Valid.overwrite (h : s.Valid) (hex : s.exhausted = true) (v : Binary64) :
    (s.overwrite v).Valid := by
  obtain ⟨hsize, havail, hpos⟩ := h.ring hex
  rcases Nat.eq_zero_or_pos s.cells.size with hzero | hpos'
  · rw [overwrite_of_size_eq_zero hzero]
    exact h
  · rw [overwrite_of_size_pos hpos']
    constructor
    · intro hgrow
      simp [hex] at hgrow
    · intro _
      refine ⟨by simpa using hsize, ?_, ?_⟩
      · simp only [Array.size_setIfInBounds]
        omega
      · intro _
        simp only [Array.size_setIfInBounds]
        exact Nat.mod_lt _ hpos'

/-- The push that finds all cells in use makes a ring of them and starts over at the first. -/
theorem Valid.exhaust (h : s.Valid) (hex : s.exhausted = false)
    (hcap : s.capacity ≤ s.cells.size) : Valid { s with exhausted := true, pos := 0 } := by
  obtain ⟨_, havail, hsize⟩ := h.growing hex
  constructor
  · intro hgrow
    simp at hgrow
  · intro _
    refine ⟨by simp only; omega, havail, ?_⟩
    intro hne
    simp only at hne ⊢
    omega

theorem valid_push (h : s.Valid) (v : Binary64) : (s.push v).Valid := by
  rcases push_cases s v with ⟨hex, hpos, heq⟩ | ⟨hex, hpos, hcap, heq⟩ | ⟨hex, _, hcap, heq⟩ |
      ⟨hex, heq⟩
  · obtain ⟨hpa, havail, hsize⟩ := h.growing hex
    rw [heq]
    refine ⟨fun _ => ?_, fun hring => ?_⟩
    · simp only [Array.size_setIfInBounds]
      omega
    · simp [hex] at hring
  · obtain ⟨hpa, havail, hsize⟩ := h.growing hex
    rw [heq]
    refine ⟨fun _ => ?_, fun hring => ?_⟩
    · simp only [Array.size_push]
      omega
    · simp [hex] at hring
  · rw [heq]
    exact (h.exhaust hex hcap).overwrite rfl v
  · rw [heq]
    exact h.overwrite hex v

theorem valid_drop (h : s.Valid) : s.drop.Valid := by
  unfold drop
  split
  · exact h
  · rename_i hne
    have havail := h.avail_le
    constructor
    · intro hex
      obtain ⟨hpa, _, hsize⟩ := h.growing hex
      have hprev : s.previous s.pos = s.pos - 1 := by
        simp only [previous]
        split <;> omega
      simp only [hprev]
      omega
    · intro hex
      obtain ⟨hsize, _, hpos⟩ := h.ring hex
      refine ⟨hsize, by simp only; omega, ?_⟩
      intro hcap
      have hlt := hpos hcap
      simp only [previous]
      split <;> omega

end Invariant

section Contents

variable {s t : Stack} {v : Binary64}

theorem length_contents (s : Stack) : s.contents.length = s.avail := by
  simp [contents]

theorem getElem_contents {k : Nat} (h : k < s.contents.length) : s.contents[k] = s.valueAt k := by
  simp [contents]

/-- A stack whose values are those of another one with a new value in front, as many as the capacity
allows. -/
theorem contents_eq_take (havail : t.avail = min (s.avail + 1) s.capacity)
    (htop : 0 < t.avail → t.valueAt 0 = v)
    (hbelow : ∀ k, k + 1 < t.avail → t.valueAt (k + 1) = s.valueAt k) :
    t.contents = (v :: s.contents).take s.capacity := by
  apply List.ext_getElem
  · simp only [length_contents, List.length_take, List.length_cons]
    omega
  · intro k hk _
    rw [getElem_contents, List.getElem_take]
    rw [length_contents] at hk
    cases k with
    | zero => exact htop hk
    | succ k =>
        rw [List.getElem_cons_succ, getElem_contents]
        exact hbelow k hk

theorem getD_setIfInBounds_self {cells : Array Binary64} {i : Nat} (h : i < cells.size) :
    (cells.setIfInBounds i v).getD i Binary64.zero = v := by
  simp [Array.getD, h]

theorem getD_setIfInBounds_of_ne {cells : Array Binary64} {i j : Nat} (h : i ≠ j) :
    (cells.setIfInBounds i v).getD j Binary64.zero = cells.getD j Binary64.zero := by
  simp [Array.getD_eq_getD_getElem?, Array.getElem?_setIfInBounds_ne h]

theorem getD_push_self {cells : Array Binary64} :
    (cells.push v).getD cells.size Binary64.zero = v := by
  simp [Array.getD_eq_getD_getElem?]

theorem getD_push_of_ne {cells : Array Binary64} {i : Nat} (h : i ≠ cells.size) :
    (cells.push v).getD i Binary64.zero = cells.getD i Binary64.zero := by
  simp [Array.getD_eq_getD_getElem?, Array.getElem?_push, h]

/-- On the contents of a ring, an overwrite puts a value in front, and the last value of a full ring
is lost. -/
theorem Valid.contents_overwrite (h : s.Valid) (hex : s.exhausted = true) (v : Binary64) :
    (s.overwrite v).contents = (v :: s.contents).take s.capacity := by
  obtain ⟨hcap, havail, hpos⟩ := h.ring hex
  rcases Nat.eq_zero_or_pos s.cells.size with hzero | hsize
  · have hcap' : s.capacity = 0 := by omega
    have havail' : s.avail = 0 := by omega
    rw [overwrite_of_size_eq_zero hzero]
    simp [contents, hcap', havail']
  · have hlt := hpos (by omega)
    rw [overwrite_of_size_pos hsize]
    apply contents_eq_take
    · simp only
      omega
    · intro _
      simp only [valueAt, Array.size_setIfInBounds, behind_succ_mod_zero hlt]
      exact getD_setIfInBounds_self hlt
    · intro k hk
      have hk' : k + 1 < s.cells.size := by
        simp only at hk
        omega
      simp only [valueAt, Array.size_setIfInBounds, behind_succ_mod_succ hlt hk']
      exact getD_setIfInBounds_of_ne (behind_ne hk')

/-- Behind the last cell or at the first one: on a ring that is the same position. -/
theorem contents_wrap (hpos : s.pos = s.cells.size) (havail : s.avail ≤ s.cells.size) :
    contents { s with exhausted := true, pos := 0 } = s.contents := by
  apply List.map_congr_left
  intro k hk
  have hlt : k < s.avail := List.mem_range.mp hk
  have hcell : behind 0 s.cells.size k = behind s.pos s.cells.size k := by
    rw [behind, behind, if_neg (by omega), if_pos (by omega)]
    omega
  rw [valueAt, valueAt, hcell]

/-- A growing stack that has one more value in its next cell. -/
theorem contents_eq_of_growing (hs : s.pos = s.avail) (hcap : s.avail < s.capacity)
    (hpos : t.pos = s.pos + 1) (havail : t.avail = s.avail + 1)
    (hnew : t.cells.getD s.pos Binary64.zero = v)
    (hold : ∀ j, j < s.pos → t.cells.getD j Binary64.zero = s.cells.getD j Binary64.zero) :
    t.contents = (v :: s.contents).take s.capacity := by
  apply contents_eq_take
  · omega
  · intro _
    have hcell : behind t.pos t.cells.size 0 = s.pos := by
      rw [hpos, behind, if_pos (by omega)]
      omega
    rw [valueAt, hcell]
    exact hnew
  · intro k hk
    have hcell : behind t.pos t.cells.size (k + 1) = s.pos - 1 - k := by
      rw [hpos, behind, if_pos (by omega)]
      omega
    have hcell' : behind s.pos s.cells.size k = s.pos - 1 - k := by
      rw [behind, if_pos (by omega)]
    rw [valueAt, valueAt, hcell, hcell']
    exact hold _ (by omega)

/-- **Push on the contents.**  The value comes in front, and what the capacity does not allow is cut
off at the end. -/
theorem contents_push (h : s.Valid) (v : Binary64) :
    (s.push v).contents = (v :: s.contents).take s.capacity := by
  rcases push_cases s v with ⟨hex, hpos, heq⟩ | ⟨hex, hpos, hcap, heq⟩ | ⟨hex, hpos, hcap, heq⟩ |
      ⟨hex, heq⟩
  · obtain ⟨hpa, havail, hsize⟩ := h.growing hex
    rw [heq]
    refine contents_eq_of_growing hpa (by omega) rfl rfl (getD_setIfInBounds_self hpos) ?_
    intro j hj
    exact getD_setIfInBounds_of_ne (by omega)
  · obtain ⟨hpa, havail, hsize⟩ := h.growing hex
    have hend : s.pos = s.cells.size := by omega
    rw [heq]
    refine contents_eq_of_growing hpa (by omega) rfl rfl ?_ ?_
    · rw [hend]
      exact getD_push_self
    · intro j hj
      exact getD_push_of_ne (by omega)
  · -- The switch moves the position from behind the last cell to the first, and no value is lost
    -- by that: only the overwrite after it loses one.
    obtain ⟨hpa, havail, hsize⟩ := h.growing hex
    rw [heq, (h.exhaust hex hcap).contents_overwrite rfl, contents_wrap (by omega) havail]
  · rw [heq]
    exact h.contents_overwrite hex v

/-- The cell behind the write position holds the value at depth zero. -/
theorem peek_eq_valueAt (h : s.Valid) (hsize : 0 < s.cells.size) : s.peek = s.valueAt 0 := by
  have hpos := h.pos_le hsize
  rw [peek, valueAt]
  congr 1
  rw [previous, behind]
  split <;> split <;> omega

/-- The top is the first of the contents, zero if there are none. -/
theorem top_eq_headD (h : s.Valid) : s.top = s.contents.headD Binary64.zero := by
  unfold top
  split
  · rename_i hzero
    simp [contents, hzero]
  · rename_i hne
    have havail := h.avail_le
    rw [peek_eq_valueAt h (by omega)]
    obtain ⟨n, hn⟩ := Nat.exists_eq_succ_of_ne_zero hne
    simp [contents, hn, List.range_succ_eq_map]

/-- **Pop on the contents.**  The first value is taken off. -/
theorem contents_drop (h : s.Valid) : s.drop.contents = s.contents.tail := by
  unfold drop
  split
  · rename_i hzero
    simp [contents, hzero]
  · rename_i hne
    have havail := h.avail_le
    have hpos := h.pos_le (by omega)
    apply List.ext_getElem
    · simp [contents]
    · intro k hk _
      rw [length_contents] at hk
      rw [getElem_contents, List.getElem_tail, getElem_contents]
      have hcell : behind (s.previous s.pos) s.cells.size k =
          behind s.pos s.cells.size (k + 1) := by
        simp only at hk
        rw [previous, behind, behind]
        split <;> split <;> split <;> omega
      rw [valueAt, valueAt, hcell]

example : (([1, 2, 3, 4, 5, 6].map Binary64.ofNat).foldl push (empty 4)).contents =
    [6, 5, 4, 3].map Binary64.ofNat := by decide

end Contents

end Stack

end ErrorFree
