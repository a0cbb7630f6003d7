import ErrorFree.Proofs.Machine.Requests

/-!
# The course of a run

**Instructions.**  `Run.instruction?` is the instruction that the next turn carries out; there is none
when the turn ends the run.

**States.**  `Run.course` lists the states in which a run makes its turns, in order.  A run that goes
on has carried out an instruction in each of them (`going_of_mem_course`), and one that has ended has
made its last turn in the last of them (`advance_eq_some`).

**Flushes.**  A turn that ends the run flushes, and so does an instruction that reads, unless it reads
zeros (`Run.flushing`).  `flushes_advance`: the flushes that a run has noted are those of the states
in which it flushes, whatever becomes of them.
-/

namespace ErrorFree

namespace Opcode

/-- The instruction takes input. -/
def isRead : Opcode → Bool
  | .getByte | .getNumber => true
  | _ => false

/-- The instruction gives output. -/
def isWrite : Opcode → Bool
  | .putChar | .putNumber => true
  | _ => false

theorem isRead_iff {op : Opcode} : op.isRead = true ↔ op = .getByte ∨ op = .getNumber := by
  cases op <;> simp [isRead]

end Opcode

namespace Machine

variable {settings : RuntimeSettings} {op : Opcode}

theorem requests_of_autoZero (hauto : settings.autoZero = true) (hwrite : op.isWrite = false)
    (m : Machine) : m.requests settings op = [] := by
  cases op with
  | getByte | getNumber => simp [requests, hauto]
  | putChar | putNumber => cases hwrite
  | _ => rfl

/-- An instruction that does not flush only writes. -/
theorem requests_only_write (h : settings.autoZero = true ∨ op.isRead = false) (m : Machine) :
    ∀ request ∈ m.requests settings op, ∃ bytes, request = .write bytes := by
  cases op with
  | getByte | getNumber =>
      have hauto : settings.autoZero = true := by simpa [Opcode.isRead] using h
      simp [requests, hauto]
  | _ => simp [requests]

end Machine

namespace Run

variable (settings : RuntimeSettings) (program : Array UInt8) {r u last : Run} {op : Opcode}
  {ending : Ending} {fuel : Nat}

section Instructions

/-- The instruction that the next turn carries out, unless that turn ends the run. -/
def instruction? (r : Run) : Option Opcode :=
  match program[r.cursor]? with
  | none => none
  | some byte => if r.atLimit settings then none else some (Opcode.decode byte)

theorem requests_eq (r : Run) :
    r.requests settings program =
      (r.instruction? settings program).elim [.flush] fun op => r.machine.requests settings op := by
  rw [requests, instruction?]
  cases program[r.cursor]? with
  | none => rfl
  | some byte => cases r.atLimit settings <;> rfl

variable {settings program}

/-- A turn without an instruction ends the run with a flush. -/
theorem turn_of_no_instruction (h : r.instruction? settings program = none) :
    ∃ termination, r.turn settings program = (r.finish termination).map some id := by
  rcases turn_cases settings program r with
      ⟨hbyte, heq⟩ | ⟨byte, hbyte, hlimit, heq⟩ | ⟨byte, hbyte, hlimit, heq⟩
  · exact ⟨.completed, heq⟩
  · exact ⟨.cycleLimit, heq⟩
  · simp [instruction?, hbyte, hlimit] at h

theorem exists_byte_of_instruction (h : r.instruction? settings program = some op) :
    ∃ byte, program[r.cursor]? = some byte ∧ Opcode.decode byte = op ∧
      r.atLimit settings = false := by
  rw [instruction?] at h
  cases hbyte : program[r.cursor]? with
  | none => simp [hbyte] at h
  | some byte =>
      cases hlimit : r.atLimit settings with
      | true => simp [hbyte, hlimit] at h
      | false =>
          refine ⟨byte, rfl, ?_, rfl⟩
          simpa [hbyte, hlimit] using h

/-- A turn with an instruction carries it out, and ends the run only if the output fails. -/
theorem turn_of_instruction (h : r.instruction? settings program = some op) :
    (r.turn settings program).1 = Ending.ofExchange (r.machine.exchange settings op).1 ∧
      (r.turn settings program).2.machine = r.machine.executed settings op := by
  obtain ⟨byte, hbyte, rfl, hlimit⟩ := exists_byte_of_instruction h
  rw [turn_of_byte hbyte hlimit, observe_eq, step_eq]
  exact ⟨rfl, rfl⟩

theorem instruction_of_going (h : (r.turn settings program).1 = none) :
    ∃ op, r.instruction? settings program = some op := by
  cases hop : r.instruction? settings program with
  | some op => exact ⟨op, rfl⟩
  | none =>
      obtain ⟨termination, hturn⟩ := turn_of_no_instruction hop
      rw [hturn] at h
      cases h

/-- Only a failure ends a run in the middle of an instruction. -/
theorem no_instruction_of_ended {termination : Termination}
    (h : (r.turn settings program).1 = some (.ended termination)) :
    r.instruction? settings program = none := by
  cases hop : r.instruction? settings program with
  | none => rfl
  | some op =>
      rw [(turn_of_instruction hop).1] at h
      cases hresult : (r.machine.exchange settings op).1 with
      | ok _ => simp [hresult, Ending.ofExchange] at h
      | error e => simp [hresult, Ending.ofExchange] at h

variable (settings program)

/-- What a turn leaves of the output, whether its requests were served or not. -/
theorem output_turn (r : Run) :
    (r.turn settings program).2.output =
      (Output.serveAll (r.requests settings program) r.output).2 := by
  rcases heq : Output.serveAll (r.requests settings program) r.output with ⟨e | _, p⟩
  · obtain ⟨last, hlast, hout⟩ := turn_of_refused settings program heq
    rw [hlast]
    exact hout
  · exact turn_output settings program heq

theorem lineBuffered_advance (fuel : Nat) (r : Run) :
    (r.advance settings program fuel).2.output.lineBuffered = r.output.lineBuffered := by
  refine advance_induction settings program
    (P := fun u => u.output.lineBuffered = r.output.lineBuffered) ?_ rfl fuel
  intro u hu
  rw [output_turn, Output.lineBuffered_serveAll, hu]

end Instructions

section States

/-- The states in which a run makes its turns, one after the other. -/
def course : Nat → Run → List Run
  | 0, _ => []
  | fuel + 1, r =>
      r :: match r.turn settings program with
        | (some _, _) => []
        | (none, next) => course fuel next

variable {settings program}

theorem course_of_ended (h : r.turn settings program = (some ending, last)) (fuel : Nat) :
    r.course settings program (fuel + 1) = [r] := by
  rw [course, h]

theorem course_of_going (h : r.turn settings program = (none, u)) (fuel : Nat) :
    r.course settings program (fuel + 1) = r :: u.course settings program fuel := by
  rw [course, h]

/-- A run that goes on has carried out an instruction in each state of its course. -/
theorem going_of_mem_course (h : r.advance settings program fuel = (none, last))
    (hu : u ∈ r.course settings program fuel) : (u.turn settings program).1 = none := by
  induction fuel generalizing r with
  | zero => cases hu
  | succ fuel ih =>
      rcases hturn : r.turn settings program with ⟨_ | ending, next⟩
      · rw [advance_of_going hturn] at h
        rw [course_of_going hturn] at hu
        rcases List.mem_cons.mp hu with rfl | hrest
        · rw [hturn]
        · exact ih h hrest
      · rw [advance_of_ended hturn] at h
        cases h

/-- A run that has ended has made its last turn in the last state of its course. -/
theorem advance_eq_some (h : r.advance settings program fuel = (some ending, last)) :
    ∃ j u, r.advance settings program j = (none, u) ∧
      u.turn settings program = (some ending, last) ∧
      r.course settings program fuel = r.course settings program j ++ [u] := by
  induction fuel generalizing r with
  | zero => cases h
  | succ fuel ih =>
      rcases hturn : r.turn settings program with ⟨_ | ending', next⟩
      · rw [advance_of_going hturn] at h
        obtain ⟨j, u, hu, hlast, hcourse⟩ := ih h
        refine ⟨j + 1, u, ?_, hlast, ?_⟩
        · rw [advance_of_going hturn, hu]
        · rw [course_of_going hturn, course_of_going hturn, hcourse, List.cons_append]
      · rw [advance_of_ended hturn] at h
        refine ⟨0, r, rfl, hturn.trans h, ?_⟩
        rw [course_of_ended hturn, course, List.nil_append]

end States

section Flushes

/-- The next turn flushes: it ends the run, or reads. -/
def flushing (r : Run) : Bool :=
  match r.instruction? settings program with
  | none => true
  | some op => !settings.autoZero && op.isRead

theorem requests_of_flushing (h : r.flushing settings program = true) :
    r.requests settings program = [.flush] := by
  rw [requests_eq]
  rw [flushing] at h
  cases hop : r.instruction? settings program with
  | none => rfl
  | some op =>
      obtain ⟨hauto, hread⟩ : settings.autoZero = false ∧ op.isRead = true := by
        simpa [hop] using h
      exact Machine.requests_of_read settings (Opcode.isRead_iff.mp hread) hauto r.machine

theorem requests_of_not_flushing (h : r.flushing settings program = false) :
    ∀ request ∈ r.requests settings program, ∃ bytes, request = .write bytes := by
  rw [requests_eq]
  rw [flushing] at h
  cases hop : r.instruction? settings program with
  | none => simp [hop] at h
  | some op =>
      apply Machine.requests_only_write
      cases hauto : settings.autoZero with
      | true => exact Or.inl rfl
      | false =>
          right
          simpa [hop, hauto] using h

theorem flushes_turn (r : Run) :
    (r.turn settings program).2.output.flushes.toList =
      r.output.flushes.toList ++
        if r.flushing settings program then [r.output.written.size] else [] := by
  rw [output_turn]
  cases hflush : r.flushing settings program with
  | true =>
      rw [requests_of_flushing settings program hflush, Output.serveAll_singleton, Output.serve,
        Output.flushes_flush]
      simp
  | false =>
      have hkept := Output.unwritten_serveAll
        (requests_of_not_flushing settings program hflush) r.output
      have hsame : (Output.serveAll (r.requests settings program) r.output).2.flushes =
          r.output.flushes := (congrArg Output.flushes hkept :)
      rw [hsame]
      simp

/-- The flushes that a run has noted: for each state in which it flushes, the bytes written then. -/
theorem flushes_advance (fuel : Nat) (r : Run) :
    (r.advance settings program fuel).2.output.flushes.toList =
      r.output.flushes.toList ++
        ((r.course settings program fuel).filter (flushing settings program)).map fun u =>
          u.output.written.size := by
  induction fuel generalizing r with
  | zero => simp [advance, course]
  | succ fuel ih =>
      have hhead : ((if r.flushing settings program then [r.output.written.size] else []) :
          List Nat) = ([r].filter (flushing settings program)).map fun u => u.output.written.size := by
        cases hflush : r.flushing settings program <;> simp [hflush]
      have hfirst := flushes_turn settings program r
      rw [hhead] at hfirst
      rcases hturn : r.turn settings program with ⟨_ | ending, next⟩
      · rw [hturn] at hfirst
        rw [advance_of_going hturn, course_of_going hturn, ih, hfirst, List.append_assoc,
          ← List.map_append, ← List.filter_append]
        rfl
      · rw [hturn] at hfirst
        rw [advance_of_ended hturn, course_of_ended hturn]
        exact hfirst

end Flushes

end Run

end ErrorFree
