import ErrorFree.Proofs.Stack.Ring

/-!
# The stack as a list that drops its oldest value

**Reference.**  `DropOldest` is a stack without cells and positions: a list with the top in front.
A push that makes it longer than the capacity removes the last value, the oldest one.

**Observations.**  What can be seen of a machine that is pushed to and popped from: after each
operation the value that a pop gave, the length, and whether it is empty.

**Result.**  `seen_empty_eq_dropOldest`: from the start on, and whatever is pushed and popped, the
ring of cells cannot be told from the reference.
-/

namespace ErrorFree

/-- What is asked of a stack. -/
inductive StackOperation where
  | push (value : Binary64)
  | pop

/-- What is seen of a stack after an operation. -/
structure StackObservation where
  /-- The value that a pop gave. -/
  result : Option Binary64
  length : Nat
  isEmpty : Bool
  deriving DecidableEq

/-- What is seen of a machine with states `σ` during operations, given what it does and shows. -/
def observations {σ : Type} (operate : σ → StackOperation → Option Binary64 × σ)
    (length : σ → Nat) (isEmpty : σ → Bool) : List StackOperation → σ → List StackObservation
  | [], _ => []
  | op :: ops, s =>
      let (result, s) := operate s op
      ⟨result, length s, isEmpty s⟩ :: observations operate length isEmpty ops s

namespace DropOldest

/-- Puts a value on top; the oldest value goes if there are too many. -/
def push (capacity : Nat) (value : Binary64) (l : List Binary64) : List Binary64 :=
  let l := value :: l
  if capacity < l.length then l.dropLast else l

/-- Takes the top value, zero when nothing is left. -/
def pop : List Binary64 → Binary64 × List Binary64
  | [] => (Binary64.zero, [])
  | value :: l => (value, l)

/-- Does what is asked. -/
def operate (capacity : Nat) (l : List Binary64) :
    StackOperation → Option Binary64 × List Binary64
  | .push value => (none, push capacity value l)
  | .pop => (some (pop l).1, (pop l).2)

/-- Dropping the oldest of a list that has become too long by one is cutting it off. -/
theorem push_eq_take {capacity : Nat} {l : List Binary64} (h : l.length ≤ capacity)
    (v : Binary64) : push capacity v l = (v :: l).take capacity := by
  unfold push
  dsimp only
  rw [List.length_cons]
  split
  · have hlen : capacity = l.length := by omega
    rw [List.dropLast_eq_take, List.length_cons, hlen]
    rfl
  · rw [List.take_of_length_le (by rw [List.length_cons]; omega)]

theorem pop_eq (l : List Binary64) : pop l = (l.headD Binary64.zero, l.tail) := by
  cases l <;> rfl

end DropOldest

namespace Stack

/-- Does what is asked. -/
def operate (s : Stack) : StackOperation → Option Binary64 × Stack
  | .push value => (none, s.push value)
  | .pop => (some s.pop.1, s.pop.2)

/-- What is seen of a stack during operations. -/
def seen (s : Stack) (operations : List StackOperation) : List StackObservation :=
  observations operate length isEmpty operations s

end Stack

/-- What is seen of the reference during operations. -/
def DropOldest.seen (capacity : Nat) (operations : List StackOperation) (l : List Binary64) :
    List StackObservation :=
  observations (operate capacity) List.length List.isEmpty operations l

namespace Stack

variable {s : Stack}

theorem length_eq_length_contents (s : Stack) : s.length = s.contents.length :=
  (length_contents s).symm

theorem isEmpty_eq_isEmpty_contents (s : Stack) : s.isEmpty = s.contents.isEmpty := by
  rw [Bool.eq_iff_iff, List.isEmpty_iff_length_eq_zero, length_contents]
  exact beq_iff_eq

/-- An operation on the stack is the operation of the reference on its contents. -/
theorem operate_simulates (h : s.Valid) (op : StackOperation) :
    (s.operate op).2.Valid ∧ (s.operate op).2.capacity = s.capacity ∧
    DropOldest.operate s.capacity s.contents op =
      ((s.operate op).1, (s.operate op).2.contents) := by
  cases op with
  | push v =>
      have hle : s.contents.length ≤ s.capacity := by
        rw [length_contents]
        exact h.length_le
      refine ⟨valid_push h v, capacity_push s v, ?_⟩
      simp only [DropOldest.operate, operate, DropOldest.push_eq_take hle, contents_push h]
  | pop =>
      refine ⟨valid_drop h, capacity_drop s, ?_⟩
      simp only [DropOldest.operate, operate, pop, DropOldest.pop_eq, contents_drop h,
        top_eq_headD h]

/-- A valid stack shows what the reference shows that starts from its contents. -/
theorem seen_eq_of_valid (h : s.Valid) (operations : List StackOperation) :
    s.seen operations = DropOldest.seen s.capacity operations s.contents := by
  induction operations generalizing s with
  | nil => rfl
  | cons op operations ih =>
      obtain ⟨hvalid, hcap, hop⟩ := operate_simulates h op
      have hrest := ih hvalid
      rw [hcap] at hrest
      simp only [seen, DropOldest.seen] at hrest
      simp only [seen, DropOldest.seen, observations, hop, hrest, length_eq_length_contents,
        isEmpty_eq_isEmpty_contents]

/-- **The stack refines a list that drops its oldest value.**  For every capacity, zero included,
and all operations from the empty stack on, each pop gives what the reference gives, and the
lengths agree after each operation. -/
theorem seen_empty_eq_dropOldest (capacity : Nat) (operations : List StackOperation) :
    (empty capacity).seen operations = DropOldest.seen capacity operations [] :=
  seen_eq_of_valid (valid_empty capacity) operations

end Stack

end ErrorFree
