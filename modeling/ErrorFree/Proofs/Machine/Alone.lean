import ErrorFree.Proofs.Machine.Limit

/-!
# A program on its own

**Observers.**  An observer only looks: without it a run goes through the same states, but for what
the observer has seen (`advance_unobserved`).

**On its own.**  `Machine.alone` is the run of a program on an empty stack and an empty heap, with
fresh random values, nobody watching, and an output of its own that takes everything.

**Result.**  `run_of_alone`: over any output that never fails, watched or not, a run with a cycle
limit ends as the program does on its own; its output has taken what the program prints on its own,
and holds nothing back.
-/

namespace ErrorFree

namespace Run

section Observers

variable (settings : RuntimeSettings) (program : Array UInt8)

/-- The run without its observer. -/
def unobserved (r : Run) : Run := { r with observer := none }

theorem finish_unobserved (termination : Termination) (r : Run) :
    r.unobserved.finish termination = (r.finish termination).map id unobserved := by
  rw [finish_eq, finish_eq]
  rfl

theorem step_unobserved (length : Nat) (byte : UInt8) (r : Run) :
    r.unobserved.step settings length byte =
      (r.step settings length byte).map id unobserved := by
  rw [step_eq, step_eq]
  rfl

theorem unobserved_observe (length : Nat) (byte : UInt8) (r : Run) :
    (r.observe length byte).unobserved = r.unobserved := by
  rw [observe_eq]
  rfl

theorem turn_unobserved (r : Run) :
    r.unobserved.turn settings program = (r.turn settings program).map id unobserved := by
  cases hbyte : program[r.cursor]? with
  | none =>
      rw [turn_of_end hbyte, turn_of_end (r := r.unobserved) hbyte, finish_unobserved]
      rfl
  | some byte =>
      cases hlimit : r.atLimit settings with
      | true =>
          rw [turn_of_limit hbyte hlimit, turn_of_limit (r := r.unobserved) hbyte hlimit,
            finish_unobserved]
          rfl
      | false =>
          rw [turn_of_byte hbyte hlimit, turn_of_byte (r := r.unobserved) hbyte hlimit]
          have hlook : r.unobserved.observe program.size byte = r.unobserved := rfl
          rw [hlook, ← unobserved_observe program.size byte, step_unobserved]

theorem advance_unobserved (fuel : Nat) (r : Run) :
    r.unobserved.advance settings program fuel =
      (r.advance settings program fuel).map id unobserved := by
  induction fuel generalizing r with
  | zero => rfl
  | succ fuel ih =>
      have hsame := turn_unobserved settings program r
      rcases hturn : r.turn settings program with ⟨_ | ending, next⟩
      · rw [hturn] at hsame
        rw [advance_of_going hturn, advance_of_going hsame, ih]
      · rw [hturn] at hsame
        rw [advance_of_ended hturn, advance_of_ended hsame]
        rfl

end Observers

section Outputs

variable {r : Run} {o : Output}

/-- After a flush nothing is held back. -/
theorem settled_flushed (h : r.machine.console.NeverFails) :
    r.flushed.output.written.toList = r.flushed.output.handed := by
  have hserved : (Output.serveAll [.flush] r.output).1 = .ok () := h [.flush]
  have hhanded := Output.handed_serveAll hserved
  rw [Output.serveAll_singleton] at hhanded
  rw [written_flushed h]
  exact (List.append_nil r.output.handed).symm.trans hhanded.symm

/-- Over another output that never fails a run is the same, and adds the same bytes to it. -/
theorem advance_over (settings : RuntimeSettings) (program : Array UInt8) (fuel : Nat)
    (h : r.machine.console.NeverFails) (ho : o.NeverFails) :
    ∃ p, (r.withOutput o).advance settings program fuel =
        (r.advance settings program fuel).map id (withOutput p) ∧
      p.NeverFails ∧
      p.handed = o.handed ++ Output.bytesOf (r.conversation settings program fuel) := by
  have hserved := serveAll_of_neverFails h (r.conversation settings program fuel)
  have hserved' : Output.serveAll (r.conversation settings program fuel) o = (.ok (), _) :=
    Prod.ext (ho _) rfl
  have hsame := advance_withOutput settings program hserved hserved'
  refine ⟨_, hsame, ?_, Output.handed_serveAll (ho _)⟩
  have hkeep := advance_induction settings program (P := fun r => r.machine.console.NeverFails)
    (fun r => turn_neverFails settings program) (r := r.withOutput o) ho fuel
  rw [hsame] at hkeep
  exact hkeep

end Outputs

end Run

namespace Machine

variable {settings : RuntimeSettings} {limit : Nat} (patience : Nat) (observed : Bool)
  (program : Array UInt8) {m : Machine}

variable (settings) in
theorem run_unobserved :
    run settings patience false program m =
      (run settings patience observed program m).map id Run.unobserved := by
  unfold run
  rw [← Run.advance_unobserved]
  cases observed <;> rfl

/-- With a cycle limit it does not matter how much patience there is. -/
theorem run_patience (hlimit : settings.maxCycles = some limit) (patience' : Nat) :
    run settings patience observed program m = run settings patience' observed program m := by
  simp [run, fuel, hlimit]

/-- Over an output that never fails a run with a cycle limit ends, and holds nothing back. -/
theorem run_settled (hlimit : settings.maxCycles = some limit) (hout : m.console.NeverFails) :
    ∃ termination last,
      run settings patience observed program m = (some (.ended termination), last) ∧
      last.machine.console.NeverFails ∧
      last.output.written.toList = last.output.handed := by
  obtain ⟨u, termination, hkeep, -, hrun, -⟩ :=
    run_withLimit_cases settings observed program hout limit patience
  have hsettings : settings.withLimit (some limit) = settings := by
    rw [RuntimeSettings.withLimit, ← hlimit]
  rw [hsettings] at hrun
  exact ⟨termination, u.flushed, hrun, hkeep.flush.2, Run.settled_flushed hkeep⟩

section Alone

/-- The run of a program on its own, with the random values of a seed. -/
def alone (settings : RuntimeSettings) (seed : Nat) (program : Array UInt8) (input : Input)
    (clock : Clock) : Option Ending × Run :=
  run settings 0 false program
    (create settings ⟨input, {}⟩ (RandomSource.ofSeed (UInt64.ofNat seed)) clock)

variable (seed : Nat) (input : Input) (clock : Clock) {o : Output}

theorem neverFails_fresh : Output.NeverFails {} := Output.Unlimited.neverFails ⟨rfl, rfl⟩

theorem alone_ended (hlimit : settings.maxCycles = some limit) :
    ∃ termination last,
      alone settings seed program input clock = (some (.ended termination), last) ∧
      last.output.written.toList = last.output.handed := by
  obtain ⟨termination, last, hrun, -, hsettled⟩ :=
    run_settled 0 false program hlimit
      (m := create settings ⟨input, {}⟩ (RandomSource.ofSeed (UInt64.ofNat seed)) clock)
      neverFails_fresh
  exact ⟨termination, last, hrun, hsettled⟩

/-- A run over an output that never fails is the run on its own, but for the output. -/
theorem run_of_alone (hlimit : settings.maxCycles = some limit) (hout : o.NeverFails) :
    ∃ termination last last' p,
      alone settings seed program input clock = (some (.ended termination), last) ∧
      run settings patience observed program
          (create settings ⟨input, o⟩ (RandomSource.ofSeed (UInt64.ofNat seed)) clock) =
        (some (.ended termination), last') ∧
      last'.unobserved = last.withOutput p ∧ p.NeverFails ∧
      p.handed = o.handed ++ last.output.written.toList ∧ p.written.toList = p.handed := by
  obtain ⟨r, hr⟩ : ∃ r, r = Run.start settings false
      (create settings ⟨input, {}⟩ (RandomSource.ofSeed (UInt64.ofNat seed)) clock) := ⟨_, rfl⟩
  have hfresh : r.machine.console.NeverFails := hr ▸ neverFails_fresh
  obtain ⟨termination, last, halone, hsettled⟩ :=
    alone_ended program seed input clock hlimit
  have hadvance : r.advance settings program (fuel settings 0) = (some (.ended termination), last) := by
    rw [hr]
    exact halone
  obtain ⟨p, hover, hkeep, hhanded⟩ :=
    Run.advance_over settings program (fuel settings 0) hfresh hout
  obtain ⟨termination', last', hrun, -, hsettled'⟩ :=
    run_settled patience observed program hlimit
      (m := create settings ⟨input, o⟩ (RandomSource.ofSeed (UInt64.ofNat seed)) clock) hout
  -- The run over `o`, without its observer, is the one that `hover` speaks of.
  have hplain := run_unobserved settings patience observed program
    (m := create settings ⟨input, o⟩ (RandomSource.ofSeed (UInt64.ofNat seed)) clock)
  have hstart : run settings 0 false program
      (create settings ⟨input, o⟩ (RandomSource.ofSeed (UInt64.ofNat seed)) clock) =
      (r.withOutput o).advance settings program (fuel settings 0) := by
    rw [hr]
    rfl
  rw [run_patience patience false program hlimit 0, hstart, hover, hadvance, hrun] at hplain
  obtain ⟨hterm, hlast⟩ := Prod.mk.inj hplain
  obtain rfl : termination = termination' := by simpa using hterm
  have hbytes := Run.handed_advance settings program hfresh (fuel settings 0)
  rw [hadvance] at hbytes
  refine ⟨termination, last, last', p, halone, hrun, hlast.symm, hkeep, ?_, ?_⟩
  · rw [hhanded, hsettled, hbytes, hr]
    rfl
  · have hout' : last'.output = p := congrArg Run.output hlast.symm
    rw [← hout']
    exact hsettled'

end Alone

end Machine

end ErrorFree
