import ErrorFree.Proofs.Machine.Alone

/-!
# Instructions in a row

**Rows.**  `Machine.executeEach` carries out the instructions of some bytes one after the other.  A
run does the same where these bytes stand at its cursor and none of them jumps
(`Run.advance_of_executeEach`).

**Programs without jumps.**  Over an output that never fails such a program is a row of instructions
from its first byte to its last, so that the row of two programs is the row of the first and then
the row of the second, and line breaks can be left out.

The end of the first run flushes, which the run of both programs does not do there.  It makes a
difference to the output alone, and none to what has been handed over to it
(`Machine.executedAll_over`).
-/

namespace ErrorFree

namespace Opcode

theorem toUInt8_ofNat_toNat (byte : UInt8) : (Char.ofNat byte.toNat).toUInt8 = byte := by
  have hlt := byte.toNat_lt
  have hvalid : byte.toNat.isValidChar := Or.inl (by omega)
  have hcode : (Char.ofNat byte.toNat).val.toNat = byte.toNat := by
    rw [Char.ofNat, dif_pos hvalid]
    rfl
  apply UInt8.toNat_inj.mp
  rw [Char.toUInt8, UInt32.toNat_toUInt8, hcode]
  omega

/-- Only one byte jumps. -/
theorem eq_of_decode_eq_jump {byte : UInt8} (h : decode byte = .jump) : byte = 'J'.toUInt8 := by
  have hchar : ofChar? (Char.ofNat byte.toNat) = some .jump := by
    rw [decode] at h
    cases hop : ofChar? (Char.ofNat byte.toNat) with
    | none => simp [hop] at h
    | some op => simpa [hop] using h
  rw [← toUInt8_ofNat_toNat byte]
  unfold ofChar? at hchar
  split at hchar
  case h_24 hJ => rw [hJ]
  all_goals cases hchar

theorem decode_ne_jump {bytes : List UInt8} (h : 'J'.toUInt8 ∉ bytes) :
    ∀ byte ∈ bytes, decode byte ≠ .jump := by
  rintro byte hbyte hdecode
  rw [eq_of_decode_eq_jump hdecode] at hbyte
  exact h hbyte

end Opcode

namespace Machine

section Rows

variable (settings : RuntimeSettings)

/-- Carries out the instructions of some bytes in their order, the first of them at `cursor`, and
gives the position that the last one leads to.  A failure of the output ends the row. -/
def executeEach (length : Nat) : List UInt8 → Nat → Machine → Except IoError Nat × Machine
  | [], cursor, m => (.ok cursor, m)
  | byte :: bytes, cursor, m =>
      match m.execute settings length cursor (Opcode.decode byte) with
      | (.ok cursor, m) => executeEach length bytes cursor m
      | (.error e, m) => (.error e, m)

/-- The machine after the instructions of some bytes. -/
def executedAll (bytes : List UInt8) (m : Machine) : Machine :=
  bytes.foldl (fun m byte => m.executed settings (Opcode.decode byte)) m

variable {settings} {m m' : Machine} {length cursor next : Nat} {byte : UInt8}
  {bytes rest : List UInt8}

theorem executeEach_cons (h : m.execute settings length cursor (Opcode.decode byte) = (.ok next, m'))
    (bytes : List UInt8) :
    m.executeEach settings length (byte :: bytes) cursor =
      m'.executeEach settings length bytes next := by
  rw [executeEach, h]

theorem executeEach_append (h : m.executeEach settings length bytes cursor = (.ok next, m'))
    (rest : List UInt8) :
    m.executeEach settings length (bytes ++ rest) cursor =
      m'.executeEach settings length rest next := by
  induction bytes generalizing m cursor with
  | nil =>
      obtain ⟨hnext, rfl⟩ := Prod.mk.inj h
      obtain rfl := Except.ok.inj hnext
      rfl
  | cons byte bytes ih =>
      rcases hexec : m.execute settings length cursor (Opcode.decode byte) with ⟨e | c, m₁⟩
      · rw [executeEach, hexec] at h
        cases h
      · rw [executeEach_cons hexec] at h
        rw [List.cons_append, executeEach_cons hexec, ih h]

theorem next_of_not_jump {op : Opcode} (hop : op ≠ .jump) (length cursor : Nat) (m : Machine) :
    m.next length cursor op = cursor + 1 := by
  cases op with
  | jump => exact absurd rfl hop
  | _ => rfl

/-- An instruction that goes well and does not jump leads to the next position. -/
theorem execute_of_not_jump {op : Opcode} (hop : op ≠ .jump)
    (hok : (m.exchange settings op).1 = .ok ()) (length cursor : Nat) :
    m.execute settings length cursor op = (.ok (cursor + 1), m.executed settings op) := by
  rw [execute_eq, hok, Except.map, next_of_not_jump hop]

theorem cursor_of_execute {op : Opcode} (hop : op ≠ .jump)
    (h : m.execute settings length cursor op = (.ok next, m')) : next = cursor + 1 := by
  rw [execute_eq, next_of_not_jump hop] at h
  cases hresult : (m.exchange settings op).1 with
  | error e =>
      rw [hresult] at h
      cases h
  | ok _ =>
      rw [hresult] at h
      exact (Except.ok.inj (congrArg Prod.fst h)).symm

theorem executedAll_cons (byte : UInt8) (bytes : List UInt8) (m : Machine) :
    m.executedAll settings (byte :: bytes) =
      (m.executed settings (Opcode.decode byte)).executedAll settings bytes := rfl

theorem executedAll_append (bytes rest : List UInt8) (m : Machine) :
    m.executedAll settings (bytes ++ rest) =
      (m.executedAll settings bytes).executedAll settings rest :=
  List.foldl_append

variable (settings)

theorem executedAll_neverFails (h : m.console.NeverFails) (bytes : List UInt8) :
    (m.executedAll settings bytes).console.NeverFails := by
  induction bytes generalizing m with
  | nil => exact h
  | cons byte bytes ih => exact ih (exchange_ok h settings (Opcode.decode byte)).2

/-- Over an output that never fails a row without jumps goes through. -/
theorem executeEach_of_neverFails (h : m.console.NeverFails)
    (hjump : ∀ byte ∈ bytes, Opcode.decode byte ≠ .jump) (length cursor : Nat) :
    m.executeEach settings length bytes cursor =
      (.ok (cursor + bytes.length), m.executedAll settings bytes) := by
  induction bytes generalizing m cursor with
  | nil => rfl
  | cons byte bytes ih =>
      have hop := hjump byte List.mem_cons_self
      obtain ⟨hok, hkeep⟩ := exchange_ok h settings (Opcode.decode byte)
      rw [executeEach_cons (execute_of_not_jump hop hok length cursor),
        ih hkeep fun b hb => hjump b (List.mem_cons_of_mem byte hb), List.length_cons,
        executedAll_cons, Nat.add_right_comm, Nat.add_assoc]

/-- Line breaks do nothing. -/
theorem executedAll_filter (bytes : List UInt8) (m : Machine) :
    m.executedAll settings
        (bytes.filter fun byte => byte != '\n'.toUInt8 && byte != '\r'.toUInt8) =
      m.executedAll settings bytes := by
  induction bytes generalizing m with
  | nil => rfl
  | cons byte bytes ih =>
      rw [List.filter_cons]
      split
      · rw [executedAll_cons, executedAll_cons, ih]
      · rename_i hbreak
        have hnop : Opcode.decode byte = .nop := by
          have hbyte : byte = '\n'.toUInt8 ∨ byte = '\r'.toUInt8 := by
            by_contra hne
            obtain ⟨hnewline, hreturn⟩ := not_or.mp hne
            exact hbreak (by simp [hnewline, hreturn])
          rcases hbyte with rfl | rfl <;> decide
        rw [executedAll_cons, hnop, ih]
        rfl

end Rows

section Outputs

variable (settings : RuntimeSettings) {m : Machine} {o : Output}

/-- Over another output that never fails an instruction does the same but to the output, which gets
the same bytes. -/
theorem executed_over (h : m.console.NeverFails) (ho : o.NeverFails)
    (hhanded : o.handed = m.console.output.handed) (op : Opcode) :
    ∃ p, (m.withOutput o).executed settings op = (m.executed settings op).withOutput p ∧
      p.NeverFails ∧ p.handed = (m.executed settings op).console.output.handed := by
  have hserved : Output.serveAll (m.requests settings op) m.console.output = (.ok (), _) :=
    Prod.ext (h _) rfl
  have hserved' : Output.serveAll (m.requests settings op) o = (.ok (), _) :=
    Prod.ext (ho _) rfl
  have hsame := executed_withOutput settings hserved hserved'
  refine ⟨_, hsame, ?_, ?_⟩
  · have hkeep := (exchange_ok (m := m.withOutput o) ho settings op).2
    show ((m.executed settings op).withOutput _).console.NeverFails
    rw [← hsame]
    exact hkeep
  · have hconsole : (m.executed settings op).console =
        ⟨m.taken settings op, (Output.serveAll (m.requests settings op) m.console.output).2⟩ := by
      show (m.exchange settings op).2 = _
      rw [exchange_eq, hserved, answer]
    rw [hconsole, Output.handed_serveAll (ho _), Output.handed_serveAll (h _), hhanded]

theorem executedAll_over (h : m.console.NeverFails) (ho : o.NeverFails)
    (hhanded : o.handed = m.console.output.handed) (bytes : List UInt8) :
    ∃ p, (m.withOutput o).executedAll settings bytes =
        (m.executedAll settings bytes).withOutput p ∧
      p.handed = (m.executedAll settings bytes).console.output.handed := by
  induction bytes generalizing m o with
  | nil => exact ⟨o, rfl, hhanded⟩
  | cons byte bytes ih =>
      obtain ⟨p, hsame, hp, hbytes⟩ :=
        executed_over settings h ho hhanded (Opcode.decode byte)
      rw [executedAll_cons, executedAll_cons, hsame]
      exact ih (exchange_ok h settings (Opcode.decode byte)).2 hp hbytes

end Outputs

end Machine

namespace Run

variable {settings : RuntimeSettings} {program : Array UInt8} {r : Run} {bytes : List UInt8}
  {c : Nat} {m : Machine}

/-- A turn below the limit whose instruction goes well. -/
theorem turn_of_execute {byte : UInt8} (hbyte : program[r.cursor]? = some byte)
    (hroom : r.atLimit settings = false)
    (h : r.machine.execute settings program.size r.cursor (Opcode.decode byte) = (.ok c, m)) :
    ∃ next, r.turn settings program = (none, next) ∧ next.machine = m ∧ next.cursor = c ∧
      next.cycles = r.cycles + 1 := by
  rw [turn_of_byte hbyte hroom, observe_eq]
  simp only [step, h]
  exact ⟨_, rfl, rfl, rfl, rfl⟩

/-- The first byte of a piece of a program that starts at the cursor, and the piece after it. -/
theorem piece_cons {cursor : Nat} {byte : UInt8}
    (h : byte :: bytes <+: program.toList.drop cursor) :
    program[cursor]? = some byte ∧ bytes <+: program.toList.drop (cursor + 1) := by
  obtain ⟨rest, hrest⟩ := h
  constructor
  · rw [← Array.getElem?_toList, ← List.head?_drop, ← hrest]
    rfl
  · refine ⟨rest, ?_⟩
    rw [← List.tail_drop, ← hrest]
    rfl

/-- **A row of instructions in a run.**  Where a row without jumps stands at the cursor, and the
cycle limit is not below its end, a run carries it out, one cycle for each byte. -/
theorem advance_of_executeEach (hpiece : bytes <+: program.toList.drop r.cursor)
    (hjump : ∀ byte ∈ bytes, Opcode.decode byte ≠ .jump)
    (hlimit : ∀ limit, settings.maxCycles = some limit → r.cycles + bytes.length ≤ limit)
    (h : r.machine.executeEach settings program.size bytes r.cursor = (.ok c, m)) :
    ∃ last, r.advance settings program bytes.length = (none, last) ∧ last.machine = m ∧
      last.cursor = r.cursor + bytes.length ∧ last.cycles = r.cycles + bytes.length := by
  induction bytes generalizing r with
  | nil =>
      obtain ⟨-, rfl⟩ := Prod.mk.inj h
      exact ⟨r, rfl, rfl, rfl, rfl⟩
  | cons byte bytes ih =>
      obtain ⟨hbyte, hrest⟩ := piece_cons hpiece
      have hroom : r.atLimit settings = false := by
        cases hmax : settings.maxCycles with
        | none => simp [atLimit, hmax]
        | some limit =>
            have hle := hlimit limit hmax
            rw [List.length_cons] at hle
            rw [atLimit_eq hmax, decide_eq_false_iff_not]
            omega
      rcases hexec : r.machine.execute settings program.size r.cursor (Opcode.decode byte) with
        ⟨e | c₁, m₁⟩
      · rw [Machine.executeEach, hexec] at h
        cases h
      · obtain rfl := Machine.cursor_of_execute (hjump byte List.mem_cons_self) hexec
        obtain ⟨u, hturn, rfl, hcursor, hcycles⟩ := turn_of_execute hbyte hroom hexec
        rw [Machine.executeEach_cons hexec, ← hcursor] at h
        rw [← hcursor] at hrest
        obtain ⟨last, hlast, hm, hend, hcount⟩ :=
          ih hrest (fun b hb => hjump b (List.mem_cons_of_mem byte hb))
            (fun limit hmax => by
              have hle := hlimit limit hmax
              rw [List.length_cons] at hle
              omega) h
        refine ⟨last, ?_, hm, ?_, ?_⟩
        · rw [List.length_cons, advance_of_going hturn, hlast]
        · rw [List.length_cons]
          omega
        · rw [List.length_cons]
          omega

end Run

namespace Machine

variable {settings : RuntimeSettings} {program : Array UInt8} {m : Machine}

/-- A program without jumps is run from its first byte to its last, and then completed. -/
theorem run_of_no_jump (hlimit : settings.maxCycles = none) (observed : Bool)
    (hjump : 'J'.toUInt8 ∉ program) (hout : m.console.NeverFails) :
    ∃ last,
      (∀ patience, program.size < patience →
        run settings patience observed program m = (some (.ended .completed), last)) ∧
      last.cycles = program.size ∧
      last.machine = ((m.reset settings).executedAll settings program.toList).flushed := by
  obtain ⟨r, hr⟩ : ∃ r, r = Run.start settings observed m := ⟨_, rfl⟩
  have hmachine : r.machine = m.reset settings := by rw [hr]; rfl
  have hcursor : r.cursor = 0 := by rw [hr]; rfl
  have hcycles : r.cycles = 0 := by rw [hr]; rfl
  have hfresh : r.machine.console.NeverFails := by
    rw [hmachine]
    exact hout
  have hno : ∀ byte ∈ program.toList, Opcode.decode byte ≠ .jump :=
    Opcode.decode_ne_jump (by simpa using hjump)
  have hrow := executeEach_of_neverFails settings hfresh hno program.size r.cursor
  have hpiece : program.toList <+: program.toList.drop r.cursor := by rw [hcursor, List.drop_zero]
  obtain ⟨u, hu, hm, hend, hcount⟩ := Run.advance_of_executeEach hpiece hno
    (fun limit hmax => by rw [hlimit] at hmax; cases hmax) hrow
  rw [hcursor, Nat.zero_add, Array.length_toList] at hend
  rw [hcycles, Nat.zero_add, Array.length_toList] at hcount
  have hlast : u.turn settings program = (some (.ended .completed), u.flushed) := by
    have hkeep : u.machine.console.NeverFails := by
      rw [hm]
      exact executedAll_neverFails settings hfresh _
    rw [Run.turn_of_end (by simp [hend]), Run.finish_of_neverFails hkeep]
    rfl
  refine ⟨u.flushed, ?_, hcount, ?_⟩
  · intro patience hpatience
    obtain ⟨more, rfl⟩ : ∃ more, patience = program.size + (more + 1) :=
      ⟨patience - program.size - 1, by omega⟩
    rw [Array.length_toList] at hu
    rw [run, fuel, hlimit, ← hr]
    show r.advance settings program (program.size + (more + 1)) = _
    rw [Run.advance_add hu, Run.advance_of_ended hlast]
  · rw [Run.flushed, hm, hmachine]

theorem flushed_eq (m : Machine) : m.flushed = m.withOutput m.console.output.flush.2 := rfl

/-- **Programs without jumps run straight through and compose.**  Without a cycle limit, and over an
output that never fails:

* the run of the first program is completed after one cycle for each byte;
* so is the run of both programs, one behind the other.  It ends with the stack, the heap, the input,
  the random values and the clock that the instructions of the second program, carried out in their
  order, make of what the first run has left, and has written all that these have handed over;
* without its line breaks the run of the first program ends with the same machine. -/
theorem run_append_of_no_jump (settings : RuntimeSettings) (hlimit : settings.maxCycles = none)
    (observed : Bool) (p q : Array UInt8) (hp : 'J'.toUInt8 ∉ p) (hq : 'J'.toUInt8 ∉ q)
    (m : Machine) (hout : m.console.NeverFails) :
    ∃ (first both bare : Run) (after : Machine),
      (∀ patience, p.size < patience →
        run settings patience observed p m = (some (.ended .completed), first)) ∧
      first.cycles = p.size ∧
      (∀ patience, p.size + q.size < patience →
        run settings patience observed (p ++ q) m = (some (.ended .completed), both)) ∧
      both.cycles = p.size + q.size ∧
      (∀ length cursor,
        first.machine.executeEach settings length q.toList cursor =
          (.ok (cursor + q.size), after)) ∧
      both.machine = after.withOutput both.output ∧
      both.output.written.toList = after.console.output.handed ∧
      (∀ patience, p.size < patience →
        run settings patience observed
            (p.filter fun byte => byte != '\n'.toUInt8 && byte != '\r'.toUInt8) m =
          (some (.ended .completed), bare)) ∧
      bare.machine = first.machine := by
  obtain ⟨first, hfirst, hfirstCycles, hfirstMachine⟩ := run_of_no_jump hlimit observed hp hout
  have hpq : 'J'.toUInt8 ∉ p ++ q := by
    rw [Array.mem_append, not_or]
    exact ⟨hp, hq⟩
  obtain ⟨both, hboth, hbothCycles, hbothMachine⟩ := run_of_no_jump hlimit observed hpq hout
  have hfilter : 'J'.toUInt8 ∉
      p.filter fun byte => byte != '\n'.toUInt8 && byte != '\r'.toUInt8 := by
    intro hmem
    exact hp (Array.mem_of_mem_filter hmem)
  obtain ⟨bare, hbare, -, hbareMachine⟩ := run_of_no_jump hlimit observed hfilter hout
  obtain ⟨left, hleft⟩ : ∃ left, left = (m.reset settings).executedAll settings p.toList :=
    ⟨_, rfl⟩
  have hkeep : left.console.NeverFails := by
    rw [hleft]
    exact executedAll_neverFails settings (m := m.reset settings) hout p.toList
  have hkeep' := executedAll_neverFails settings hkeep q.toList
  rw [Array.toList_append, executedAll_append, ← hleft, flushed_eq] at hbothMachine
  rw [← hleft, flushed_eq] at hfirstMachine
  obtain ⟨o, hover, hhanded⟩ := executedAll_over settings hkeep
    (Output.NeverFails.flush hkeep).2 (Output.handed_flush _) q.toList
  refine ⟨first, both, bare, (left.executedAll settings q.toList).withOutput o, hfirst,
    hfirstCycles, ?_, ?_, ?_, ?_, ?_, ?_, ?_⟩
  · intro patience hpatience
    apply hboth
    rwa [Array.size_append]
  · rw [hbothCycles, Array.size_append]
  · intro length cursor
    rw [hfirstMachine, ← hover, ← Array.length_toList]
    exact executeEach_of_neverFails settings (m := left.withOutput _) (Output.NeverFails.flush hkeep).2
      (Opcode.decode_ne_jump (by simpa using hq)) length cursor
  · rw [Run.output, hbothMachine]
    rfl
  · rw [Run.output, hbothMachine]
    exact (Output.written_flush hkeep'.flush.1).trans hhanded.symm
  · intro patience hpatience
    apply hbare
    exact Nat.lt_of_le_of_lt Array.size_filter_le hpatience
  · rw [hbareMachine, hfirstMachine, Array.toList_filter, executedAll_filter, ← hleft, flushed_eq]

/-- A program that copies a byte, with a line break at its end, and one that copies a number. -/
theorem run_append_of_no_jump_copying :
    'J'.toUInt8 ∉ #[68, 67, 10] ∧ 'J'.toUInt8 ∉ #[79, 78] ∧
    Console.NeverFails ⟨{ rest := [65, 49, 50, 10] }, {}⟩ ∧
    ∃ both bare,
      run {} 6 false (#[68, 67, 10] ++ #[79, 78])
          (create {} ⟨{ rest := [65, 49, 50, 10] }, {}⟩ (RandomSource.ofSeed 0)
            { seconds := fun _ => 0 }) = (some (.ended .completed), both) ∧
      both.cycles = 5 ∧
      run {} 6 false #[68, 67]
          (create {} ⟨{ rest := [65, 49, 50, 10] }, {}⟩ (RandomSource.ofSeed 0)
            { seconds := fun _ => 0 }) = (some (.ended .completed), bare) := by
  have hp : 'J'.toUInt8 ∉ #[68, 67, 10] := by
    rw [List.mem_toArray]
    decide
  have hq : 'J'.toUInt8 ∉ #[79, 78] := by
    rw [List.mem_toArray]
    decide
  have hout : Console.NeverFails ⟨{ rest := [65, 49, 50, 10] }, {}⟩ :=
    Output.Unlimited.neverFails ⟨rfl, rfl⟩
  obtain ⟨first, both, bare, after, -, -, hboth, hcycles, -, -, -, hbare, -⟩ :=
    run_append_of_no_jump {} rfl false #[68, 67, 10] #[79, 78] hp hq
      (create {} ⟨{ rest := [65, 49, 50, 10] }, {}⟩ (RandomSource.ofSeed 0)
        { seconds := fun _ => 0 }) hout
  exact ⟨hp, hq, hout, both, bare, hboth 6 (by decide), hcycles, hbare 6 (by decide)⟩

end Machine

end ErrorFree
