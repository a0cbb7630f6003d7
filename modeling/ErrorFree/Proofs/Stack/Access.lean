import ErrorFree.Proofs.Stack.Ring

/-!
# Accesses to the stack

**Checked operations.**  `push?`, `peek?` and `pop?` follow `push`, `peek` and `pop`, but look every
index up, and give nothing when an index lies outside of the cells, a subtraction would go below
zero, or a remainder is taken by zero.

**Accesses.**  An instruction uses the stack by a list of accesses, one after the other.

**Results.**
* `push?_eq_some`, `peek?_eq_some`, `pop?_eq_some`: on a valid stack no check fails.
* `performAll?_eq_some`: neither does one in a list of accesses, and every stack on the way is
  valid (`valid_performAll`).
* `perform_induction`: what a push and a pop keep, a list of accesses keeps.
-/

namespace ErrorFree

namespace Checked

/-- A difference, if it is not below zero. -/
def sub (a b : Nat) : Option Nat := if b ≤ a then some (a - b) else none

/-- A remainder, if the divisor is not zero. -/
def mod (a b : Nat) : Option Nat := if b = 0 then none else some (a % b)

/-- The cells with one of them changed, if there is such a cell. -/
def write (cells : Array Binary64) (i : Nat) (value : Binary64) : Option (Array Binary64) :=
  if h : i < cells.size then some (cells.set i value h) else none

theorem sub_eq_some {a b : Nat} (h : b ≤ a) : sub a b = some (a - b) := if_pos h

theorem mod_eq_some {a b : Nat} (h : 0 < b) : mod a b = some (a % b) := if_neg (by omega)

theorem write_eq_some {cells : Array Binary64} {i : Nat} (h : i < cells.size) (value : Binary64) :
    write cells i value = some (cells.setIfInBounds i value) := by
  simp [write, Array.setIfInBounds, h]

end Checked

/-- One access to a stack. -/
inductive Access where
  | push (value : Binary64)
  | pop
  | peek

namespace Stack

section Checked

/-- The position before a position of the ring, checked. -/
def previous? (s : Stack) (i : Nat) : Option Nat :=
  if i = 0 then Checked.sub s.cells.size 1 else Checked.sub i 1

/-- An overwrite, checked. -/
def overwrite? (s : Stack) (value : Binary64) : Option Stack :=
  if s.cells.isEmpty then some s
  else do
    let cells ← Checked.write s.cells s.pos value
    let pos ← Checked.mod (s.pos + 1) cells.size
    some { s with cells, avail := min (s.avail + 1) cells.size, pos }

/-- A push, checked. -/
def push? (s : Stack) (value : Binary64) : Option Stack :=
  if s.exhausted then s.overwrite? value
  else if s.pos < s.cells.size then do
    let cells ← Checked.write s.cells s.pos value
    some { s with cells, avail := s.avail + 1, pos := s.pos + 1 }
  else if s.cells.size < s.capacity then
    some { s with cells := s.cells.push value, avail := s.avail + 1, pos := s.pos + 1 }
  else { s with exhausted := true, pos := 0 }.overwrite? value

/-- A look at the cell behind the write position, checked. -/
def peek? (s : Stack) : Option Binary64 :=
  if s.cells.isEmpty then some Binary64.zero
  else do
    let i ← s.previous? s.pos
    s.cells[i]?

/-- A pop, checked. -/
def pop? (s : Stack) : Option (Binary64 × Stack) :=
  if s.avail = 0 then some (Binary64.zero, s)
  else do
    let avail ← Checked.sub s.avail 1
    let pos ← s.previous? s.pos
    let value ← s.cells[pos]?
    some (value, { s with avail, pos })

variable {s : Stack}

theorem previous?_eq_some (h : 0 < s.cells.size) (i : Nat) :
    s.previous? i = some (s.previous i) := by
  unfold previous? previous
  split
  · exact Checked.sub_eq_some h
  · exact Checked.sub_eq_some (by omega)

theorem overwrite?_eq_some (hpos : 0 < s.cells.size → s.pos < s.cells.size) (v : Binary64) :
    s.overwrite? v = some (s.overwrite v) := by
  unfold overwrite?
  rcases Nat.eq_zero_or_pos s.cells.size with hzero | hsize
  · rw [overwrite_of_size_eq_zero hzero, if_pos (by simpa using hzero)]
  · have hne : s.cells.isEmpty = false := by
      simp only [Array.isEmpty]
      exact decide_eq_false (by omega)
    rw [overwrite_of_size_pos hsize, Checked.write_eq_some (hpos hsize)]
    simp [hne, Checked.mod_eq_some hsize]

/-- No check of a push fails. -/
theorem push?_eq_some (h : s.Valid) (v : Binary64) : s.push? v = some (s.push v) := by
  unfold push? push
  cases hex : s.exhausted with
  | true =>
      obtain ⟨hcap, _, hpos⟩ := h.ring hex
      exact overwrite?_eq_some (fun hsize => hpos (by omega)) v
  | false =>
      simp only [Bool.false_eq_true, if_false]
      split
      · rename_i hpos
        rw [Checked.write_eq_some hpos]
        rfl
      · split
        · rfl
        · exact overwrite?_eq_some (fun hsize => hsize) v

/-- The cell behind the write position is one of the cells. -/
theorem getElem?_previous (h : s.Valid) (hsize : 0 < s.cells.size) :
    s.cells[s.previous s.pos]? = some s.peek := by
  have hpos := h.pos_le hsize
  have hlt : s.previous s.pos < s.cells.size := by
    unfold previous
    split <;> omega
  simp [peek, Array.getD, hlt]

/-- No check of a look at the top fails. -/
theorem peek?_eq_some (h : s.Valid) : s.peek? = some s.peek := by
  unfold peek?
  rcases Nat.eq_zero_or_pos s.cells.size with hzero | hsize
  · have hcells : s.cells = #[] := Array.eq_empty_of_size_eq_zero hzero
    simp [peek, hcells]
  · have hne : s.cells.isEmpty = false := by
      simp only [Array.isEmpty]
      exact decide_eq_false (by omega)
    rw [previous?_eq_some hsize]
    simp [hne, getElem?_previous h hsize]

/-- No check of a pop fails. -/
theorem pop?_eq_some (h : s.Valid) : s.pop? = some s.pop := by
  unfold pop? pop top drop
  split
  · rfl
  · rename_i hne
    have hsize : 0 < s.cells.size := Nat.lt_of_lt_of_le (Nat.pos_of_ne_zero hne) h.avail_le
    rw [Checked.sub_eq_some (Nat.pos_of_ne_zero hne), previous?_eq_some hsize]
    simp [getElem?_previous h hsize]

end Checked

section Accesses

/-- The stack after an access. -/
def perform (s : Stack) : Access → Stack
  | .push value => s.push value
  | .pop => s.drop
  | .peek => s

/-- The stack after an access, checked. -/
def perform? (s : Stack) : Access → Option Stack
  | .push value => s.push? value
  | .pop => s.pop?.map Prod.snd
  | .peek => s.peek?.map fun _ => s

/-- The stack after accesses, one after the other. -/
def performAll (s : Stack) (accesses : List Access) : Stack :=
  accesses.foldl perform s

/-- The stack after accesses, one after the other, checked. -/
def performAll? (s : Stack) (accesses : List Access) : Option Stack :=
  accesses.foldlM perform? s

/-- What a push and a pop keep, every list of accesses keeps. -/
theorem perform_induction {P : Stack → Prop} (hpush : ∀ s v, P s → P (s.push v))
    (hdrop : ∀ s, P s → P s.drop) {s : Stack} (h : P s) (accesses : List Access) :
    P (s.performAll accesses) := by
  induction accesses generalizing s with
  | nil => exact h
  | cons access accesses ih =>
      cases access with
      | push v => exact ih (hpush s v h)
      | pop => exact ih (hdrop s h)
      | peek => exact ih h

theorem capacity_performAll (s : Stack) (accesses : List Access) :
    (s.performAll accesses).capacity = s.capacity := by
  refine perform_induction (P := fun t => t.capacity = s.capacity) ?_ ?_ rfl accesses
  · intro t v ht
    rw [capacity_push, ht]
  · intro t ht
    rw [capacity_drop, ht]

variable {s : Stack}

theorem valid_performAll (h : s.Valid) (accesses : List Access) : (s.performAll accesses).Valid :=
  perform_induction (P := Valid) (fun _ v ht => valid_push ht v) (fun _ ht => valid_drop ht) h
    accesses

theorem perform?_eq_some (h : s.Valid) (access : Access) :
    s.perform? access = some (s.perform access) := by
  cases access with
  | push v => exact push?_eq_some h v
  | pop => simp [perform?, perform, pop?_eq_some h, pop]
  | peek => simp [perform?, perform, peek?_eq_some h]

/-- No check of a list of accesses fails. -/
theorem performAll?_eq_some (h : s.Valid) (accesses : List Access) :
    s.performAll? accesses = some (s.performAll accesses) := by
  induction accesses generalizing s with
  | nil => rfl
  | cons access accesses ih =>
      have hvalid : (s.perform access).Valid := valid_performAll h [access]
      show (s.perform? access).bind (fun t => t.performAll? accesses) = _
      rw [perform?_eq_some h]
      exact ih hvalid

end Accesses

end Stack

end ErrorFree
