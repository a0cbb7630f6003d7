import ErrorFree.Proofs.Machine.Straight

/-!
# Expressions in postfix order

**Expressions.**  An `Expr` is a tree of operators over bytes that push their own value.  Its code is
that of its operands, from left to right, and then the byte of its operator; its `need` is how many
cells of the stack the code takes at most.

**Argument.**  Each operand is left on top of what the stack had before (`Stack.Topped`), in both
modes of the stack, as long as there is room.  So an operator finds its operands, and an induction
over the tree carries this to the whole code (`executeEach_code`).  Without room the code would go on
all the same, but a push would drop the oldest value.
-/

namespace ErrorFree

section Syntax

/-- The byte of a binary operator. -/
def BinaryOp.byte : BinaryOp → UInt8
  | .add => '+'.toUInt8
  | .sub => '-'.toUInt8
  | .mul => '*'.toUInt8
  | .div => '/'.toUInt8
  | .rem => '%'.toUInt8
  | .pow => '^'.toUInt8
  | .equal => '='.toUInt8
  | .greater => '>'.toUInt8
  | .less => '<'.toUInt8

/-- The byte of a unary operator. -/
def UnaryOp.byte : UnaryOp → UInt8
  | .abs => 'a'.toUInt8
  | .sign => 's'.toUInt8
  | .sqrt => 'r'.toUInt8
  | .log10 => 'l'.toUInt8
  | .floor => 'f'.toUInt8
  | .ceil => 'c'.toUInt8

@[simp] theorem BinaryOp.decode_byte (op : BinaryOp) : Opcode.decode op.byte = .binary op := by
  cases op <;> rfl

@[simp] theorem UnaryOp.decode_byte (op : UnaryOp) : Opcode.decode op.byte = .unary op := by
  cases op <;> rfl

/-- An expression over bytes that push their own value. -/
inductive Expr where
  | literal (byte : UInt8) (pushes : Opcode.decode byte = .literal byte)
  | unary (op : UnaryOp) (operand : Expr)
  | binary (op : BinaryOp) (left right : Expr)

namespace Expr

/-- The bytes of an expression, each operator behind its operands. -/
def code : Expr → List UInt8
  | literal byte _ => [byte]
  | unary op operand => operand.code ++ [op.byte]
  | binary op left right => left.code ++ right.code ++ [op.byte]

/-- How many cells the code of an expression takes at most. -/
def need : Expr → Nat
  | literal _ _ => 1
  | unary _ operand => operand.need
  | binary _ left right => max left.need (1 + right.need)

/-- The value of an expression. -/
def value : Expr → Binary64
  | literal byte _ => Binary64.ofNat byte.toNat
  | unary op operand => op.apply operand.value
  | binary op left right => op.apply left.value right.value

/-- No byte of the code jumps. -/
theorem code_ne_jump (e : Expr) : ∀ byte ∈ e.code, Opcode.decode byte ≠ .jump := by
  induction e with
  | literal byte pushes =>
      intro b hb
      obtain rfl := List.mem_singleton.mp hb
      rw [pushes]
      rintro ⟨⟩
  | unary op operand ih =>
      intro b hb
      rcases List.mem_append.mp hb with hoperand | hop
      · exact ih b hoperand
      · obtain rfl := List.mem_singleton.mp hop
        simp
  | binary op left right ihl ihr =>
      intro b hb
      rcases List.mem_append.mp hb with hoperands | hop
      · rcases List.mem_append.mp hoperands with hleft | hright
        · exact ihl b hleft
        · exact ihr b hright
      · obtain rfl := List.mem_singleton.mp hop
        simp

end Expr

end Syntax

namespace Stack

variable {s t u : Stack} {a b v : Binary64}

/-- What so many pops give are the first of the contents. -/
theorem values_eq_take (h : s.Valid) (n : Nat) : s.values n = s.contents.take n := by
  induction n generalizing s with
  | zero => rfl
  | succ n ih =>
      rw [values]
      split
      · rename_i hempty
        have hzero : s.avail = 0 := by simpa [isEmpty] using hempty
        simp [contents, hzero]
      · rename_i hempty
        have hcontents : s.contents ≠ [] := by
          rw [ne_eq, ← List.length_eq_zero_iff, length_contents]
          simpa [isEmpty] using hempty
        obtain ⟨x, l, hl⟩ := List.exists_cons_of_ne_nil hcontents
        rw [ih (valid_drop h), top_eq_headD h, contents_drop h, hl]
        rfl

/-- All that can be popped are the contents. -/
theorem values_length (h : s.Valid) : s.values s.length = s.contents := by
  rw [values_eq_take h]
  exact List.take_of_length_le (Nat.le_of_eq (length_contents s))

/-- The stack `t` is the stack `s` with a value on top, whatever their cells. -/
structure Topped (v : Binary64) (s t : Stack) : Prop where
  valid : t.Valid
  capacity : t.capacity = s.capacity
  contents : t.contents = v :: s.contents

theorem Topped.length (h : Topped v s t) : t.length = s.length + 1 := by
  show t.avail = s.avail + 1
  rw [← length_contents, h.contents, List.length_cons, length_contents]

theorem Topped.length_lt (h : Topped v s t) : s.length < s.capacity := by
  have hle := h.valid.length_le
  rw [h.length, h.capacity] at hle
  omega

theorem Topped.top (h : Topped v s t) : t.top = v := by
  rw [top_eq_headD h.valid, h.contents]
  rfl

theorem Topped.contents_drop (h : Topped v s t) : t.drop.contents = s.contents := by
  rw [Stack.contents_drop h.valid, h.contents]
  rfl

/-- A push on a stack with the same contents, where there is room. -/
theorem topped_push (ht : t.Valid) (hcapacity : t.capacity = s.capacity)
    (hcontents : t.contents = s.contents) (hroom : s.length < s.capacity) (v : Binary64) :
    Topped v s (t.push v) where
  valid := valid_push ht v
  capacity := (capacity_push t v).trans hcapacity
  contents := by
    have hlength : (v :: s.contents).length ≤ s.capacity := by
      rw [List.length_cons, length_contents]
      exact hroom
    rw [contents_push ht, hcapacity, hcontents, List.take_of_length_le hlength]

theorem Topped.unary (h : Topped v s t) (op : UnaryOp) : Topped (op.apply v) s (t.unary op) := by
  have hpush := topped_push (valid_drop h.valid) ((capacity_drop t).trans h.capacity)
    h.contents_drop h.length_lt (op.apply t.top)
  rw [h.top] at hpush
  rw [Stack.unary, h.top]
  exact hpush

/-- The upper of two values is the right operand. -/
theorem Topped.binary (ha : Topped a s t) (hb : Topped b t u) (op : BinaryOp) :
    Topped (op.apply a b) s (u.binary op) := by
  have hvalid := valid_drop hb.valid
  have hlower : Topped a s u.drop :=
    ⟨hvalid, (capacity_drop u).trans (hb.capacity.trans ha.capacity),
      hb.contents_drop.trans ha.contents⟩
  rw [Stack.binary, hb.top, hlower.top]
  exact topped_push (valid_drop hvalid) ((capacity_drop _).trans hlower.capacity)
    hlower.contents_drop ha.length_lt (op.apply a b)

end Stack

namespace Machine

/-- **The code of an expression.**  Where the stack has room for it, the code leaves the value of the
expression on top of the stack and changes nothing else. -/
theorem executeEach_code (settings : RuntimeSettings) (length : Nat) (e : Expr) (cursor : Nat)
    (m : Machine) (hvalid : m.stack.Valid)
    (hroom : m.stack.length + e.need ≤ m.stack.capacity) :
    ∃ s, m.executeEach settings length e.code cursor =
        (.ok (cursor + e.code.length), { m with stack := s }) ∧
      Stack.Topped e.value m.stack s := by
  induction e generalizing m cursor with
  | literal byte pushes =>
      have hexec : m.execute settings length cursor (Opcode.decode byte) =
          (.ok (cursor + 1), m.onStack (·.push (Binary64.ofNat byte.toNat))) := by
        rw [pushes]
        rfl
      refine ⟨m.stack.push (Binary64.ofNat byte.toNat), ?_, ?_⟩
      · rw [Expr.code, executeEach_cons hexec]
        rfl
      · exact Stack.topped_push hvalid rfl rfl hroom _
  | unary op operand ih =>
      obtain ⟨s, hrow, htop⟩ := ih cursor m hvalid hroom
      have hexec : execute settings length (cursor + operand.code.length)
          (Opcode.decode op.byte) { m with stack := s } =
          (.ok (cursor + operand.code.length + 1), { m with stack := s.unary op }) := by
        rw [op.decode_byte]
        rfl
      refine ⟨s.unary op, ?_, htop.unary op⟩
      rw [Expr.code, executeEach_append hrow, executeEach_cons hexec, List.length_append,
        ← Nat.add_assoc]
      rfl
  | binary op left right ihl ihr =>
      rw [Expr.need] at hroom
      obtain ⟨s, hrow, htop⟩ := ihl cursor m hvalid (by omega)
      -- The value of the left operand takes one cell while the right one is computed.
      have hroom' : s.length + right.need ≤ s.capacity := by
        rw [htop.length, htop.capacity]
        omega
      obtain ⟨t, hrow', htop'⟩ := ihr (cursor + left.code.length) { m with stack := s }
        htop.valid hroom'
      have hexec : execute settings length (cursor + left.code.length + right.code.length)
          (Opcode.decode op.byte) { m with stack := t } =
          (.ok (cursor + left.code.length + right.code.length + 1),
            { m with stack := t.binary op }) := by
        rw [op.decode_byte]
        rfl
      refine ⟨t.binary op, ?_, htop.binary htop' op⟩
      rw [Expr.code, List.append_assoc, executeEach_append hrow, executeEach_append hrow',
        executeEach_cons hexec, List.length_append, List.length_append, ← Nat.add_assoc,
        ← Nat.add_assoc]
      rfl

end Machine

namespace Run

/-- **Postfix code computes its expression.**  The stack of every state of a run is valid, growing or
exhausted.  From any state with a valid stack on which `values` can be popped and for which there is
room for what the expression needs besides, let the code of an expression stand at the cursor, and
the cycle limit, if there is one, not be reached in it.  Then the run carries out the code, one cycle
for each byte, and comes to the place behind it with the value of the expression on top of `values`;
of the machine nothing but the stack has changed. -/
theorem advance_code (settings : RuntimeSettings) (program : Array UInt8) :
    (∀ observed m fuel,
      ((start settings observed m).advance settings program fuel).2.machine.stack.Valid) ∧
    ∀ (e : Expr) (before after : List UInt8) (values : List Binary64) (r : Run),
      program.toList = before ++ e.code ++ after → r.cursor = before.length →
      r.machine.stack.Valid → r.machine.stack.values r.machine.stack.length = values →
      values.length + e.need ≤ r.machine.stack.capacity →
      (∀ limit, settings.maxCycles = some limit → r.cycles + e.code.length ≤ limit) →
      ∃ last, r.advance settings program e.code.length = (none, last) ∧
        last.cycles = r.cycles + e.code.length ∧
        last.cursor = before.length + e.code.length ∧
        last.machine.stack.Valid ∧
        last.machine.stack.values last.machine.stack.length = e.value :: values ∧
        last.machine = { r.machine with stack := last.machine.stack } := by
  constructor
  · intro observed m fuel
    exact advance_machine_induction settings program (P := fun m => m.stack.Valid)
      (fun m op h => Stack.valid_performAll h _) (fun _ h => h) (Stack.valid_empty _) fuel
  · rintro e before after values r hprogram hcursor hvalid rfl hroom hlimit
    rw [Stack.values_length hvalid, Stack.length_contents] at hroom
    obtain ⟨s, hrow, htop⟩ :=
      Machine.executeEach_code settings program.size e r.cursor r.machine hvalid hroom
    have hpiece : e.code <+: program.toList.drop r.cursor := by
      refine ⟨after, ?_⟩
      rw [hprogram, hcursor, List.append_assoc, List.drop_left]
    obtain ⟨last, hlast, hmachine, hend, hcycles⟩ :=
      advance_of_executeEach hpiece e.code_ne_jump hlimit hrow
    refine ⟨last, hlast, hcycles, by rw [hend, hcursor], ?_⟩
    rw [hmachine]
    refine ⟨htop.valid, ?_, rfl⟩
    show s.values s.length = _
    rw [Stack.values_length htop.valid, htop.contents, Stack.values_length hvalid]

/-- The code of a difference, in the middle of a program, on an exhausted stack of three cells with
one value in it: the code fills the ring and loses nothing. -/
theorem advance_code_exhausted :
    ∃ r last : Run,
      r.machine.stack.exhausted = true ∧ r.machine.stack.capacity = 3 ∧
      r.machine.stack.values 3 = [Binary64.ofNat 7] ∧
      r.advance {} #[78, 53, 51, 45, 78] 3 = (none, last) ∧ last.cursor = 4 ∧
      last.machine.stack.values last.machine.stack.length =
        [Binary64.ofNat 2, Binary64.ofNat 7] := by
  obtain ⟨s, hs⟩ : ∃ s, s = (([1, 7, 3, 4].map Binary64.ofNat).foldl Stack.push
    (Stack.empty 3)).drop.drop := ⟨_, rfl⟩
  have hvalid : s.Valid := by
    rw [hs]
    exact Stack.valid_drop (Stack.valid_drop (Stack.valid_push (Stack.valid_push
      (Stack.valid_push (Stack.valid_push (Stack.valid_empty 3) _) _) _) _))
  have hvalues : s.values s.length = [Binary64.ofNat 7] := by
    rw [hs]
    decide
  have hcapacity : s.capacity = 3 := by rw [hs]; rfl
  obtain ⟨last, hlast, -, hcursor, -, hstack, -⟩ := (advance_code {} #[78, 53, 51, 45, 78]).2
    (.binary .sub (.literal 53 rfl) (.literal 51 rfl)) [78] [78] [Binary64.ofNat 7]
    { machine :=
        { Machine.create {} ⟨{ rest := [] }, {}⟩ (RandomSource.ofSeed 0)
            { seconds := fun _ => 0 } with stack := s }
      cursor := 1 }
    rfl rfl hvalid hvalues (Nat.le_of_eq hcapacity.symm) (fun _ h => by cases h)
  refine ⟨_, last, ?_, hcapacity, ?_, hlast, hcursor, ?_⟩
  · show s.exhausted = true
    rw [hs]
    rfl
  · show s.values 3 = _
    rw [hs]
    decide
  · rw [hstack]
    decide

end Run

end ErrorFree
