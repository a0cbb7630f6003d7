import ErrorFree.Machine.Step
import ErrorFree.Proofs.Stack.History

/-!
# What a look at the stack sees

A look at the top does not ask whether there is anything to pop.  On an emptied stack it sees a
value that is dead already, and which one this is depends on the whole history.

**Dead cells.**  As long as the stack grows, the cell `i` is written exactly by the pushes that raise
the length from `i` to `i + 1`, so that it holds the value of the most recent of these
(`raisedLast_cell`), popped or not.  An emptied stack has its write position at the first cell, and
the cell behind that is the last one.

**Values.**  In both modes every cell holds a value that was pushed (`push_mem_of_mem_cells`).

**Result.**  `peek_after`: what is seen after any history, and that the instruction `d` pushes it.
-/

namespace ErrorFree

namespace Stack

/-- The push of a value after a history raises the length to `n`. -/
def Raises (capacity n : Nat) (before : List StackOperation) (value : Binary64) : Prop :=
  (after capacity before).length + 1 = n ∧
    (after capacity (before ++ [.push value])).length = n

/-- The most recent push of a history that raised the length to `n` was a push of `value`. -/
def RaisedLast (capacity n : Nat) (history : List StackOperation) (value : Binary64) : Prop :=
  ∃ before, before ++ [.push value] <+: history ∧ Raises capacity n before value ∧
    ∀ other w, other ++ [.push w] <+: history → Raises capacity n other w →
      other.length ≤ before.length

/-- The push of a value after a history leaves it in a cell. -/
def Stores (capacity : Nat) (before : List StackOperation) (value : Binary64) : Prop :=
  value ∈ (after capacity (before ++ [.push value])).cells

section Raising

variable {capacity n : Nat} {history : List StackOperation} {v : Binary64}

/-- A push that raises the length is the most recent one to do so. -/
theorem Raises.raisedLast (h : Raises capacity n history v) :
    RaisedLast capacity n (history ++ [.push v]) v := by
  refine ⟨history, List.prefix_rfl, h, ?_⟩
  intro other w hother _
  have hle := hother.length_le
  simp only [List.length_append, List.length_singleton] at hle
  omega

/-- An operation that does not raise the length to `n` leaves the most recent push that did. -/
theorem RaisedLast.concat (h : RaisedLast capacity n history v) {op : StackOperation}
    (hop : ∀ w, op = .push w → ¬ Raises capacity n history w) :
    RaisedLast capacity n (history ++ [op]) v := by
  obtain ⟨before, hbefore, hraises, hlast⟩ := h
  refine ⟨before, hbefore.trans (List.prefix_append _ _), hraises, ?_⟩
  intro other w hother hraises'
  rcases List.prefix_concat_iff.mp hother with heq | hother
  · obtain ⟨rfl, rfl⟩ := List.append_singleton_inj.mp heq
    exact absurd hraises' (hop w rfl)
  · exact hlast other w hother hraises'

end Raising

section Cells

variable {s : Stack} {v x : Binary64}

/-- A push that leaves the stack growing writes the cell whose number is the length. -/
theorem getD_cells_push (h : s.Valid) (hgrow : (s.push v).exhausted = false) {i : Nat}
    (hi : i < (s.push v).cells.size) :
    (s.push v).length = s.length + 1 ∧
    (i = s.length ∧ (s.push v).cells.getD i Binary64.zero = v ∨
      i ≠ s.length ∧ i < s.cells.size ∧
        (s.push v).cells.getD i Binary64.zero = s.cells.getD i Binary64.zero) := by
  obtain ⟨hex, hcases⟩ := push_cases_of_growing hgrow
  obtain ⟨hpos, hle, _⟩ := h.growing hex
  have hlen : s.length = s.pos := hpos.symm
  rw [hlen]
  rcases hcases with ⟨hlt, heq⟩ | ⟨hge, _, heq⟩
  · rw [heq] at hi ⊢
    simp only [Array.size_setIfInBounds] at hi
    refine ⟨congrArg (· + 1) hlen, ?_⟩
    by_cases hcell : i = s.pos
    · rw [hcell]
      exact Or.inl ⟨rfl, getD_setIfInBounds_self hlt⟩
    · exact Or.inr ⟨hcell, hi, getD_setIfInBounds_of_ne (Ne.symm hcell)⟩
  · have hend : s.pos = s.cells.size := by omega
    rw [heq] at hi ⊢
    simp only [Array.size_push] at hi
    refine ⟨congrArg (· + 1) hlen, ?_⟩
    by_cases hcell : i = s.pos
    · rw [hcell, hend]
      exact Or.inl ⟨rfl, getD_push_self⟩
    · exact Or.inr ⟨hcell, by omega, getD_push_of_ne (hend ▸ hcell)⟩

theorem mem_cells_overwrite (h : x ∈ (s.overwrite v).cells) : x ∈ s.cells ∨ x = v := by
  unfold overwrite at h
  split at h
  · exact Or.inl h
  · exact Array.mem_or_eq_of_mem_setIfInBounds h

/-- A push brings no value into the cells but its own. -/
theorem mem_cells_push (h : x ∈ (s.push v).cells) : x ∈ s.cells ∨ x = v := by
  rcases push_cases s v with ⟨_, _, heq⟩ | ⟨_, _, _, heq⟩ | ⟨_, _, _, heq⟩ | ⟨_, heq⟩
  · rw [heq] at h
    exact Array.mem_or_eq_of_mem_setIfInBounds h
  · rw [heq] at h
    exact Array.mem_push.mp h
  · rw [heq] at h
    exact mem_cells_overwrite (s := { s with exhausted := true, pos := 0 }) h
  · rw [heq] at h
    exact mem_cells_overwrite h

/-- Unless no cell is allowed at all, an overwrite leaves its value in one. -/
theorem mem_cells_overwrite_self (h : s.Valid) (hex : s.exhausted = true) (hcap : s.capacity ≠ 0)
    (v : Binary64) : v ∈ (s.overwrite v).cells := by
  have hpos := (h.ring hex).2.2 hcap
  rw [overwrite_of_size_pos (Nat.lt_of_le_of_lt (Nat.zero_le _) hpos)]
  exact Array.mem_setIfInBounds hpos

theorem mem_cells_push_self (h : s.Valid) (hcap : s.capacity ≠ 0) (v : Binary64) :
    v ∈ (s.push v).cells := by
  rcases push_cases s v with ⟨_, hpos, heq⟩ | ⟨_, _, _, heq⟩ | ⟨hex, _, hfull, heq⟩ | ⟨hex, heq⟩
  · rw [heq]
    exact Array.mem_setIfInBounds hpos
  · rw [heq]
    exact Array.mem_push_self
  · rw [heq]
    exact mem_cells_overwrite_self (h.exhaust hex hfull) rfl hcap v
  · rw [heq]
    exact mem_cells_overwrite_self h hex hcap v

/-- What is seen is zero or in a cell. -/
theorem peek_mem_cells (s : Stack) : s.peek = Binary64.zero ∨ s.peek ∈ s.cells := by
  unfold peek Array.getD
  split
  · exact Or.inr (Array.getElem_mem _)
  · exact Or.inl rfl

/-- An emptied stack that has not been exhausted shows its last cell. -/
theorem peek_of_emptied (h : s.Valid) (hempty : s.length = 0)
    (hgrow : s.exhausted = false) : s.peek = s.cells.getD (s.backing - 1) Binary64.zero := by
  have hpos : s.pos = 0 := (h.growing hgrow).1.trans hempty
  rw [peek, previous, if_pos hpos]
  rfl

end Cells

section Histories

variable {capacity : Nat} {history : List StackOperation}

/-- **Dead cells.**  While the stack grows, each of its cells holds the value of the most recent push
that raised the length beyond it. -/
theorem raisedLast_cell (hgrow : (after capacity history).exhausted = false) {i : Nat}
    (hi : i < (after capacity history).cells.size) :
    RaisedLast capacity (i + 1) history
      ((after capacity history).cells.getD i Binary64.zero) := by
  induction history using List.reverseRecOn with
  | nil => exact absurd hi (Nat.not_lt_zero i)
  | append_singleton history op ih =>
      cases op with
      | push v =>
          rw [after_push] at hgrow hi ⊢
          have hex := (push_cases_of_growing hgrow).1
          obtain ⟨hlen, ⟨rfl, hcell⟩ | ⟨hne, hlt, hcell⟩⟩ :=
            getD_cells_push (valid_after capacity history) hgrow hi
          · rw [hcell]
            exact Raises.raisedLast ⟨rfl, by rw [after_push, hlen]⟩
          · rw [hcell]
            exact (ih hex hlt).concat fun w _ hraises => hne (Nat.succ.inj hraises.1).symm
      | pop =>
          rw [after_pop, cells_drop] at hi ⊢
          rw [after_pop, exhausted_drop] at hgrow
          exact (ih hgrow hi).concat fun w hpush => nomatch hpush

/-- Every cell holds a value that was pushed. -/
theorem push_mem_of_mem_cells {x : Binary64} (h : x ∈ (after capacity history).cells) :
    .push x ∈ history := by
  induction history using List.reverseRecOn with
  | nil => simp [after, empty] at h
  | append_singleton history op ih =>
      cases op with
      | push v =>
          rw [after_push] at h
          rcases mem_cells_push h with hold | rfl
          · exact List.mem_append_left _ (ih hold)
          · exact List.mem_append_right _ List.mem_cons_self
      | pop =>
          rw [after_pop, cells_drop] at h
          exact List.mem_append_left _ (ih h)

/-- Where no push stored its value, there are no cells. -/
theorem cells_eq_empty_of_not_stores
    (h : ∀ before v, before ++ [.push v] <+: history → ¬ Stores capacity before v) :
    (after capacity history).cells = #[] := by
  by_contra hne
  obtain ⟨x, hx⟩ := Array.exists_mem_of_ne_empty _ hne
  have hcap : capacity ≠ 0 := by
    rintro rfl
    have hsize := (valid_after 0 history).size_le
    rw [capacity_after] at hsize
    exact hne (Array.eq_empty_of_size_eq_zero (Nat.le_zero.mp hsize))
  obtain ⟨before, later, rfl⟩ := List.append_of_mem (push_mem_of_mem_cells hx)
  apply h before x
  · exact ⟨later, (List.append_cons before _ later).symm⟩
  · rw [Stores, after_push]
    exact mem_cells_push_self (valid_after capacity before) (by rwa [capacity_after]) x

/-- **What a look at the stack sees.**  After any pushes and pops from the empty stack on:

* if there is something to pop, the value that the next pop gives;
* if no push has stored its value, zero;
* if the stack is emptied and has not been exhausted, the value of the most recent push that raised
  the length as far as it ever came;
* in every case zero or a value that was pushed.

The instruction `d` pushes what is seen. -/
theorem peek_after (capacity : Nat) (history : List StackOperation) :
    (0 < (after capacity history).length →
      (after capacity history).pop.1 = (after capacity history).peek) ∧
    ((∀ before v, before ++ [.push v] <+: history → ¬ Stores capacity before v) →
      (after capacity history).peek = Binary64.zero) ∧
    ((after capacity history).length = 0 → (after capacity history).exhausted = false →
      0 < (after capacity history).backing →
      RaisedLast capacity (after capacity history).backing history
        (after capacity history).peek) ∧
    ((after capacity history).peek = Binary64.zero ∨
      .push (after capacity history).peek ∈ history) ∧
    ∀ (settings : RuntimeSettings) (length cursor : Nat) (m : Machine),
      m.stack = after capacity history →
      m.execute settings length cursor .dup =
        (.ok (cursor + 1),
          { m with
            stack := after capacity (history ++ [.push (after capacity history).peek]) }) := by
  refine ⟨?_, ?_, ?_, ?_, ?_⟩
  · intro hlength
    exact if_neg (Nat.ne_of_gt hlength)
  · intro hnone
    rw [peek, cells_eq_empty_of_not_stores hnone]
    rfl
  · intro hempty hgrow hbacking
    have hlast := raisedLast_cell hgrow (i := (after capacity history).backing - 1)
      (Nat.sub_lt hbacking Nat.one_pos)
    rw [Nat.sub_add_cancel hbacking] at hlast
    rwa [peek_of_emptied (valid_after capacity history) hempty hgrow]
  · rcases peek_mem_cells (after capacity history) with hzero | hmem
    · exact Or.inl hzero
    · exact Or.inr (push_mem_of_mem_cells hmem)
  · intro settings length cursor m hstack
    rw [after_push, ← hstack]
    rfl

-- The second cell was written last when the length became two, and the pop left it as it was.
example : (after 4 ([1, 2].map (.push ∘ Binary64.ofNat) ++ [.pop, .pop] ++
    [.push (Binary64.ofNat 3), .pop])).peek = Binary64.ofNat 2 := by decide

end Histories

end Stack

end ErrorFree
