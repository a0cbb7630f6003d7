import ErrorFree.Proofs.Stack.DropOldest
import Mathlib.Data.List.Induction
import Mathlib.Order.Bounds.Defs

/-!
# The stack and the history of its operations

**History.**  `Stack.after` is the stack after a list of pushes and pops from the empty stack on, the
oldest first.  What was true at some time so far is true after a prefix of the history.

**Cells.**  Neither the number of cells nor the flag is computed from the length.  One operation
raises the number of cells to the length that it leads to, if that is greater (`backing_operate`),
and it exhausts the stack if it is a push onto `capacity` values (`exhausted_operate_iff`).

**Result.**  `after_watermark`: the number of cells is the greatest length so far, the stack is
exhausted exactly if a push was once made onto `capacity` values, and it stays so with all its cells.
-/

namespace ErrorFree

namespace Stack

/-- The stack after a history of operations. -/
def after (capacity : Nat) (history : List StackOperation) : Stack :=
  history.foldl (fun s op => (s.operate op).2) (empty capacity)

section History

variable (capacity : Nat) (history : List StackOperation)

theorem after_concat (op : StackOperation) :
    after capacity (history ++ [op]) = ((after capacity history).operate op).2 := by
  simp [after]

theorem after_push (v : Binary64) :
    after capacity (history ++ [.push v]) = (after capacity history).push v :=
  after_concat capacity history (.push v)

theorem after_pop : after capacity (history ++ [.pop]) = (after capacity history).drop :=
  after_concat capacity history .pop

theorem valid_after : (after capacity history).Valid := by
  induction history using List.reverseRecOn with
  | nil => exact valid_empty capacity
  | append_singleton history op ih =>
      rw [after_concat]
      exact (operate_simulates ih op).1

theorem capacity_after : (after capacity history).capacity = capacity := by
  induction history using List.reverseRecOn with
  | nil => rfl
  | append_singleton history op ih =>
      rw [after_concat, (operate_simulates (valid_after capacity history) op).2.1, ih]

end History

section Steps

variable {s : Stack}

/-- A push takes a new cell only for a value that no cell is left for. -/
theorem backing_push (h : s.Valid) (v : Binary64) :
    (s.push v).backing = max s.backing (s.push v).length := by
  have havail := (valid_push h v).avail_le
  unfold backing length
  rcases push_cases s v with ⟨hex, hpos, heq⟩ | ⟨hex, hpos, hcap, heq⟩ | ⟨hex, hpos, hcap, heq⟩ |
      ⟨hex, heq⟩
  · rw [heq] at havail ⊢
    simp only [Array.size_setIfInBounds] at havail ⊢
    omega
  · obtain ⟨hpa, hle, _⟩ := h.growing hex
    rw [heq]
    simp only [Array.size_push]
    omega
  · rw [heq] at havail ⊢
    rw [size_overwrite] at havail ⊢
    exact (Nat.max_eq_left havail).symm
  · rw [heq] at havail ⊢
    rw [size_overwrite] at havail ⊢
    exact (Nat.max_eq_left havail).symm

theorem cells_drop (s : Stack) : s.drop.cells = s.cells := by
  unfold drop
  split <;> rfl

theorem exhausted_drop (s : Stack) : s.drop.exhausted = s.exhausted := by
  unfold drop
  split <;> rfl

/-- **One operation on the cells.** -/
theorem backing_operate (h : s.Valid) (op : StackOperation) :
    (s.operate op).2.backing = max s.backing (s.operate op).2.length := by
  cases op with
  | push v => exact backing_push h v
  | pop =>
      have havail := (valid_drop h).avail_le
      show s.drop.cells.size = max s.cells.size s.drop.avail
      rw [cells_drop] at havail ⊢
      exact (Nat.max_eq_left havail).symm

theorem exhausted_push_iff (h : s.Valid) (v : Binary64) :
    (s.push v).exhausted = true ↔ s.exhausted = true ∨ s.length = s.capacity := by
  have hroom : s.exhausted = false → s.avail < s.cells.size ∨ s.cells.size < s.capacity →
      s.length ≠ s.capacity := by
    intro hex hlt
    obtain ⟨_, hle, hsize⟩ := h.growing hex
    unfold length
    omega
  rcases push_cases s v with ⟨hex, hpos, heq⟩ | ⟨hex, hpos, hcap, heq⟩ | ⟨hex, hpos, hcap, heq⟩ |
      ⟨hex, heq⟩
  · obtain ⟨hpa, _, _⟩ := h.growing hex
    simp [heq, hex, hroom hex (Or.inl (hpa ▸ hpos))]
  · simp [heq, hex, hroom hex (Or.inr hcap)]
  · obtain ⟨hpa, hle, hsize⟩ := h.growing hex
    have hfull : s.length = s.capacity := by
      unfold length
      omega
    simp [heq, exhausted_overwrite, hfull]
  · simp [heq, exhausted_overwrite, hex]

/-- **One operation on the flag.**  Once set it stays, and a push onto `capacity` values sets it. -/
theorem exhausted_operate_iff (h : s.Valid) (op : StackOperation) :
    (s.operate op).2.exhausted = true ↔
      s.exhausted = true ∨ s.length = s.capacity ∧ ∃ v, op = .push v := by
  cases op with
  | push v => simp [operate, exhausted_push_iff h]
  | pop => simp [operate, pop, exhausted_drop]

end Steps

section Histories

variable (capacity : Nat) (history : List StackOperation)

/-- The number of cells is the greatest length so far. -/
theorem isGreatest_backing :
    IsGreatest {n | ∃ before, before <+: history ∧ (after capacity before).length = n}
      (after capacity history).backing := by
  induction history using List.reverseRecOn with
  | nil =>
      refine ⟨⟨[], List.prefix_rfl, rfl⟩, ?_⟩
      rintro n ⟨before, hbefore, rfl⟩
      rw [List.prefix_nil.mp hbefore]
      exact Nat.le_refl 0
  | append_singleton history op ih =>
      have hstep := backing_operate (valid_after capacity history) op
      rw [← after_concat] at hstep
      obtain ⟨⟨peak, hpeak, hlength⟩, hbound⟩ := ih
      rw [hstep]
      constructor
      · rcases Nat.le_total (after capacity history).backing
            (after capacity (history ++ [op])).length with hle | hle
        · exact ⟨history ++ [op], List.prefix_rfl, (Nat.max_eq_right hle).symm⟩
        · exact ⟨peak, hpeak.trans (List.prefix_append _ _), hlength.trans (Nat.max_eq_left hle).symm⟩
      · rintro n ⟨before, hbefore, rfl⟩
        rcases List.prefix_concat_iff.mp hbefore with rfl | hbefore
        · exact Nat.le_max_right _ _
        · exact Nat.le_trans (hbound ⟨before, hbefore, rfl⟩) (Nat.le_max_left _ _)

/-- A stack is exhausted exactly if a push was once made onto `capacity` values. -/
theorem exhausted_after_iff :
    (after capacity history).exhausted = true ↔
      ∃ before v, before ++ [.push v] <+: history ∧ (after capacity before).length = capacity := by
  induction history using List.reverseRecOn with
  | nil => simp [after, empty]
  | append_singleton history op ih =>
      rw [after_concat, exhausted_operate_iff (valid_after capacity history), ih, capacity_after]
      constructor
      · rintro (⟨before, v, hbefore, hfull⟩ | ⟨hfull, v, rfl⟩)
        · exact ⟨before, v, hbefore.trans (List.prefix_append _ _), hfull⟩
        · exact ⟨history, v, List.prefix_rfl, hfull⟩
      · rintro ⟨before, v, hbefore, hfull⟩
        rcases List.prefix_concat_iff.mp hbefore with heq | hbefore
        · obtain ⟨rfl, rfl⟩ := List.append_singleton_inj.mp heq
          exact Or.inr ⟨hfull, v, rfl⟩
        · exact Or.inl ⟨before, v, hbefore, hfull⟩

/-- **The cells and the flag tell the history.**  Whatever the capacity is, zero included, and
whatever is pushed and popped:

* there are as many cells as the stack ever had values;
* the stack is exhausted exactly if some push so far was made onto `capacity` values;
* an exhausted stack stays exhausted, with `capacity` cells. -/
theorem after_watermark :
    IsGreatest {n | ∃ before, before <+: history ∧ (after capacity before).length = n}
      (after capacity history).backing ∧
    ((after capacity history).exhausted = true ↔
      ∃ before v, before ++ [.push v] <+: history ∧ (after capacity before).length = capacity) ∧
    ((after capacity history).exhausted = true → ∀ more,
      (after capacity (history ++ more)).exhausted = true ∧
        (after capacity (history ++ more)).backing = capacity) := by
  refine ⟨isGreatest_backing capacity history, exhausted_after_iff capacity history, ?_⟩
  intro hex more
  obtain ⟨before, v, hbefore, hfull⟩ := (exhausted_after_iff capacity history).mp hex
  have hex' : (after capacity (history ++ more)).exhausted = true :=
    (exhausted_after_iff capacity _).mpr
      ⟨before, v, hbefore.trans (List.prefix_append _ _), hfull⟩
  have hcells := ((valid_after capacity (history ++ more)).ring hex').1
  rw [capacity_after] at hcells
  exact ⟨hex', hcells⟩

end Histories

end Stack

end ErrorFree
