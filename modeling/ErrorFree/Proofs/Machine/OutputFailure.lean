import ErrorFree.Proofs.Machine.NeverFails
import ErrorFree.Proofs.Machine.Requests

/-!
# A failing output cuts a run short

The run over a device that takes everything is compared with the run over a device that does not.
Both ask the same of their outputs up to the failure, so what the failing device has got is read off
the conversation of the run that does not fail.

**Results.**
* `advance_withRoom`: over a device with room for `n` bytes a run fails exactly when it writes more
  than `n`, and then the first `n` were written.
* `advance_failingFlush`: over a device whose flush `k + 1` fails a run fails exactly when it comes
  to that flush, and then the bytes before it were written.  An instruction that reads and whose
  flush fails has changed nothing.
* `run_withOutput_failing`: both for whole runs with a cycle limit.
-/

namespace ErrorFree

namespace Output

variable {o p : Output} {e : IoError}

theorem flush_eq_error (hline : o.lineBuffered = false) (h : o.flush = (.error e, p)) :
    o.failingFlush = some (o.flushes.size + 1) ∧ e = .stuck ∧ p = o.noted := by
  unfold flush at h
  dsimp only at h
  split at h
  · rename_i hfail
    obtain ⟨he, hp⟩ := Prod.mk.inj h
    refine ⟨by simpa using hfail, (Except.error.inj he).symm, hp.symm⟩
  · simp [hline] at h

end Output

namespace Machine

/-- Only an instruction that reads flushes. -/
theorem read_of_flushesOf_ne_nil {settings : RuntimeSettings} {op : Opcode} {m : Machine} {n : Nat}
    (h : Output.flushesOf n (m.requests settings op) ≠ []) :
    (op = .getByte ∨ op = .getNumber) ∧ settings.autoZero = false := by
  cases op with
  | getByte | getNumber =>
      cases hauto : settings.autoZero with
      | true => simp [requests, hauto, Output.flushesOf] at h
      | false => simp
  | _ => exact absurd rfl h

end Machine

namespace Run

variable {settings : RuntimeSettings} {program : Array UInt8} {r last : Run} {fuel : Nat}
  {termination : Termination}

section Cuts

variable {asked : List Output.Request} {ending : Ending} {o p : Output} {e : IoError}

/-- What a device that takes everything has got at the end of a run. -/
theorem output_of_plain (hasked : (r.withOutput {}).conversation settings program fuel = asked)
    (hrun : (r.withOutput {}).advance settings program fuel = (some ending, last)) :
    last.output = ({} : Output).after asked := by
  have hplain := Output.serveAll_plain (o := {}) ⟨⟨rfl, rfl⟩, rfl⟩ asked
  rw [← hasked] at hplain
  have hout := advance_output settings program (r := r.withOutput {}) hplain
  rw [hrun, hasked] at hout
  exact hout

/-- A device that serves all that is asked makes no difference. -/
theorem advance_of_served (hasked : (r.withOutput {}).conversation settings program fuel = asked)
    (hrun : (r.withOutput {}).advance settings program fuel = (some ending, last))
    (hserved : Output.serveAll asked o = (.ok (), p)) :
    (r.withOutput o).advance settings program fuel = (some ending, last.withOutput p) := by
  have hplain := Output.serveAll_plain (o := {}) ⟨⟨rfl, rfl⟩, rfl⟩ asked
  rw [← hasked] at hplain hserved
  have hsame := advance_withOutput settings program (r := r.withOutput {}) hplain hserved
  rw [hrun] at hsame
  exact hsame

/-- A device that refuses a part of what is asked cuts the run in the turn that asks it. -/
theorem advance_of_cut (hasked : (r.withOutput {}).conversation settings program fuel = asked)
    (hrefused : Output.serveAll asked o = (.error e, p)) :
    ∃ cut j u done,
      (r.withOutput o).advance settings program fuel = (some (.failed e), cut) ∧ cut.output = p ∧
      j < fuel ∧ (r.withOutput {}).advance settings program j = (none, u) ∧
      u.output = ({} : Output).after done ∧
      (∃ between, Output.serveAll done o = (.ok (), between) ∧
        Output.serveAll (u.requests settings program) between = (.error e, p) ∧
        (u.withOutput between).turn settings program = (some (.failed e), cut)) := by
  have hplain := Output.serveAll_plain (o := {}) ⟨⟨rfl, rfl⟩, rfl⟩ asked
  rw [← hasked] at hplain hrefused
  obtain ⟨j, u, between, hj, hu, hdone, hdone', hturn, hlast⟩ :=
    advance_of_refused settings program (r := r.withOutput {}) hplain hrefused
  obtain ⟨cut, hcut, hout⟩ :=
    turn_of_refused settings program (r := u.withOutput between) (by rwa [requests_withOutput])
  refine ⟨cut, j, u, _, hlast.trans hcut, hout, hj, hu, ?_, between, hdone', hturn, hcut⟩
  rw [output_withOutput, Output.serveAll_plain ⟨⟨rfl, rfl⟩, rfl⟩] at hdone
  exact (Prod.mk.inj hdone).2.symm

end Cuts

/-- Over a device with limited room a run goes on until there is no room for what it writes. -/
theorem advance_withRoom
    (hrun : (r.withOutput {}).advance settings program fuel = (some (.ended termination), last))
    (n : Nat) (refusal : IoError) :
    ∃ ending cut,
      (r.withOutput { room := some n, refusal }).advance settings program fuel =
        (some ending, cut) ∧
      (ending = .failed refusal ↔ n < last.output.written.size) ∧
      cut.output.written.toList = last.output.written.toList.take n ∧
      (last.output.written.size ≤ n → ending = .ended termination ∧
        cut = last.withOutput
          { last.output with room := some (n - last.output.written.size), refusal }) := by
  obtain ⟨asked, hasked⟩ : ∃ asked, (r.withOutput {}).conversation settings program fuel = asked :=
    ⟨_, rfl⟩
  rw [output_of_plain hasked hrun]
  have hbytes : (({} : Output).after asked).written.toList = Output.bytesOf asked := by
    simp [Output.after]
  have hsize : (({} : Output).after asked).written.size = (Output.bytesOf asked).length := by
    simp [Output.after]
  rw [hbytes, hsize]
  rcases Output.serveAll_room (o := { refusal }) rfl rfl n asked with
      ⟨hfits, hserved⟩ | ⟨hlarge, p, hrefused, hp⟩
  · refine ⟨.ended termination, _, advance_of_served hasked hrun hserved, ?_, ?_, ?_⟩
    · simp only [reduceCtorEq, false_iff]
      omega
    · rw [List.take_of_length_le hfits]
      exact hbytes
    · intro _
      exact ⟨rfl, rfl⟩
  · obtain ⟨cut, _, _, _, hcut, rfl, _⟩ := advance_of_cut hasked hrefused
    refine ⟨.failed refusal, cut, hcut, by simp [hlarge], ?_, ?_⟩
    · rw [hp]
      simp
    · intro hle
      omega

/-- A turn that flushes reads, or is the last of the run. -/
theorem turn_of_flushesOf_ne_nil {n : Nat}
    (h : Output.flushesOf n (r.requests settings program) ≠ []) :
    r.requests settings program = [.flush] ∧
    ((∃ byte, program[r.cursor]? = some byte ∧ r.atLimit settings = false ∧
        (Opcode.decode byte = .getByte ∨ Opcode.decode byte = .getNumber) ∧
        settings.autoZero = false) ∨
      (∃ t, ∀ o,
        (r.withOutput o).turn settings program = ((r.withOutput o).finish t).map some id)) := by
  unfold requests at h ⊢
  cases hbyte : program[r.cursor]? with
  | none =>
      refine ⟨rfl, Or.inr ⟨.completed, ?_⟩⟩
      intro o
      exact turn_of_end (r := r.withOutput o) hbyte
  | some byte =>
      cases hlimit : r.atLimit settings with
      | true =>
          refine ⟨rfl, Or.inr ⟨.cycleLimit, ?_⟩⟩
          intro o
          exact turn_of_limit (r := r.withOutput o) hbyte hlimit
      | false =>
          simp only [hbyte, hlimit, Bool.false_eq_true, if_false] at h
          obtain ⟨hread, hauto⟩ := Machine.read_of_flushesOf_ne_nil h
          refine ⟨?_, Or.inl ⟨byte, rfl, rfl, hread, hauto⟩⟩
          exact Machine.requests_of_read settings hread hauto r.machine

theorem turn_of_unread {byte : UInt8} {e : IoError} {p : Output}
    (hbyte : program[r.cursor]? = some byte) (hlimit : r.atLimit settings = false)
    (hread : Opcode.decode byte = .getByte ∨ Opcode.decode byte = .getNumber)
    (hauto : settings.autoZero = false) (hflush : r.output.flush = (.error e, p)) :
    (r.turn settings program).2.cycles = r.cycles + 1 ∧
      (r.turn settings program).2.machine = r.machine.withOutput p := by
  rw [turn_of_byte hbyte hlimit, observe_eq, step_eq]
  exact ⟨rfl, Machine.executed_of_unflushed settings hread hauto hflush⟩

theorem last_of_finish {j : Nat} {u : Run} {ending : Ending} {t : Termination}
    (hrun : r.advance settings program fuel = (some ending, last)) (hj : j < fuel)
    (hu : r.advance settings program j = (none, u))
    (hend : u.turn settings program = (u.finish t).map some id) :
    last = { u with machine := u.machine.flushed } := by
  rw [finish_eq] at hend
  obtain ⟨d, rfl⟩ : ∃ d, fuel = j + (d + 1) := ⟨fuel - j - 1, by omega⟩
  rw [advance_add hu, advance_of_ended hend] at hrun
  exact (Prod.mk.inj hrun).2.symm

/-- The state in which a failing flush leaves a run: as before the instruction that was to read, or
as at the end of the run. -/
theorem cut_of_failingFlush {k j : Nat} {u cut : Run} {between : Output}
    {done : List Output.Request}
    (hrun : (r.withOutput {}).advance settings program fuel = (some (.ended termination), last))
    (hj : j < fuel) (hu : (r.withOutput {}).advance settings program j = (none, u))
    (hdone : u.output = ({} : Output).after done)
    (hbetween : Output.serveAll done { failingFlush := some (k + 1) } = (.ok (), between))
    (hrefused : Output.serveAll (u.requests settings program) between = (.error .stuck, cut.output))
    (hturn : (u.withOutput between).turn settings program = (some (.failed .stuck), cut)) :
    (∃ byte, program[u.cursor]? = some byte ∧
        (Opcode.decode byte = .getByte ∨ Opcode.decode byte = .getNumber) ∧
        u.output.flushes.size = k ∧ cut.cycles = u.cycles + 1 ∧
        cut.machine = u.machine.withOutput cut.output) ∨
      (k + 1 = last.output.flushes.size ∧ cut = last.withOutput cut.output) := by
  -- The flushes before this turn were served, so they are the same as without a failure.
  obtain ⟨hafter, hfew⟩ := Output.eq_after_of_failingFlush
    (o := { failingFlush := some (k + 1) }) rfl rfl rfl (Nat.zero_le k) hbetween
  have hroom : between.room = none := by rw [hafter]; rfl
  have hline : between.lineBuffered = false := by rw [hafter]; rfl
  have hfailing : between.failingFlush = some (k + 1) := by rw [hafter]; rfl
  have hcount : between.flushes.size = u.output.flushes.size := by
    simp [hafter, hdone, Output.after]
  obtain ⟨hrequests, hwhere⟩ := turn_of_flushesOf_ne_nil
    (Output.flushesOf_ne_nil_of_failingFlush hroom hline hfailing hfew hrefused)
  rw [hrequests, Output.serveAll_singleton] at hrefused
  have hflush : between.flush = (.error .stuck, cut.output) := hrefused
  obtain ⟨hfail, -, -⟩ := Output.flush_eq_error hline hflush
  have hk : k = between.flushes.size := by simpa [hfailing] using hfail
  rcases hwhere with ⟨byte, hbyte, hlimit, hread, hauto⟩ | ⟨t, hfinish⟩
  · left
    obtain ⟨hcycles, hmachine⟩ :=
      turn_of_unread (r := u.withOutput between) hbyte hlimit hread hauto hflush
    rw [hturn] at hcycles hmachine
    exact ⟨byte, hbyte, hread, by omega, hcycles, hmachine⟩
  · right
    -- Without the failure this turn is the last one too, and differs in the output only.
    have hcut := hfinish between
    rw [hturn, finish_eq] at hcut
    obtain ⟨-, rfl⟩ := Prod.mk.inj hcut
    obtain rfl := last_of_finish hrun hj hu (hfinish u.output)
    have hnoted : u.output.flush.2 = u.output.noted := by
      simp [hdone, Output.flush, Output.after, Output.noted]
    refine ⟨?_, rfl⟩
    show k + 1 = u.output.flush.2.flushes.size
    rw [hnoted, Output.noted, Array.size_push, hk, hcount]

/-- Over a device on which a flush fails a run goes on until that flush. -/
theorem advance_failingFlush
    (hrun : (r.withOutput {}).advance settings program fuel = (some (.ended termination), last))
    (k : Nat) :
    ∃ ending cut,
      (r.withOutput { failingFlush := some (k + 1) }).advance settings program fuel =
        (some ending, cut) ∧
      (ending = .failed .stuck ↔ k < last.output.flushes.size) ∧
      (∀ f, last.output.flushes[k]? = some f →
        cut.output.written.toList = last.output.written.toList.take f ∧
        ((∃ j u byte, (r.withOutput {}).advance settings program j = (none, u) ∧
            program[u.cursor]? = some byte ∧
            (Opcode.decode byte = .getByte ∨ Opcode.decode byte = .getNumber) ∧
            u.output.flushes.size = k ∧ cut.cycles = u.cycles + 1 ∧
            cut.machine = u.machine.withOutput cut.output) ∨
          (k + 1 = last.output.flushes.size ∧ cut = last.withOutput cut.output))) ∧
      (last.output.flushes.size ≤ k → ending = .ended termination ∧
        cut = last.withOutput { last.output with failingFlush := some (k + 1) }) := by
  obtain ⟨asked, hasked⟩ : ∃ asked, (r.withOutput {}).conversation settings program fuel = asked :=
    ⟨_, rfl⟩
  have hlast := output_of_plain hasked hrun
  have hbytes : last.output.written.toList = Output.bytesOf asked := by
    simp [hlast, Output.after]
  have hflushes : last.output.flushes = (Output.flushesOf 0 asked).toArray := by
    simp [hlast, Output.after]
  rw [hbytes, hflushes]
  rcases Output.serveAll_failingFlush (o := { failingFlush := some (k + 1) }) rfl rfl rfl
      (Nat.zero_le k) asked with ⟨hfew, hserved⟩ | ⟨f, p, hf, hrefused, hp⟩
  · have hfew' : (Output.flushesOf 0 asked).length ≤ k := by simpa using hfew
    refine ⟨.ended termination, _, advance_of_served hasked hrun hserved, ?_, ?_, ?_⟩
    · simp only [reduceCtorEq, false_iff, List.size_toArray]
      omega
    · intro f hf
      have hlt := (List.getElem?_eq_some_iff.mp (by simpa using hf)).1
      omega
    · intro _
      rw [hlast]
      exact ⟨rfl, rfl⟩
  · have hf' : (Output.flushesOf 0 asked)[k]? = some f := by simpa using hf
    have hlt : k < (Output.flushesOf 0 asked).length := (List.getElem?_eq_some_iff.mp hf').1
    obtain ⟨cut, j, u, done, hcut, rfl, hj, hu, hdone, between, hbetween, hturn, hlastTurn⟩ :=
      advance_of_cut hasked hrefused
    refine ⟨.failed .stuck, cut, hcut, by simpa using hlt, ?_, ?_⟩
    · intro g hg
      obtain rfl : f = g := by simpa [hf'] using hg
      refine ⟨by simp [hp], ?_⟩
      rcases cut_of_failingFlush hrun hj hu hdone hbetween hturn hlastTurn with
          ⟨byte, hread⟩ | ⟨hend, hsame⟩
      · left
        exact ⟨j, u, byte, hu, hread⟩
      · right
        rw [hflushes] at hend
        exact ⟨hend, hsame⟩
    · intro hle
      rw [List.size_toArray] at hle
      omega

end Run

namespace Machine

/-- **A failing output cuts a run short and does nothing else.**  Let a run with a cycle limit, over
a device that takes everything, write some bytes and flush a number of times.

Over a device that accepts only `n` bytes the run fails exactly when there are more than `n`, and
the bytes written are the first `n`; otherwise the run is the same.

Over a device whose flush number `k + 1` fails the run fails exactly when it makes so many flushes.
The bytes written are then those before that flush.  If an instruction that reads input was to
flush, the machine is, the output apart, as it was before that instruction; if the flush was that at
the end, the run is, the output apart, as at its end.  Otherwise the run is the same. -/
theorem run_withOutput_failing (settings : RuntimeSettings) (limit : Nat)
    (hlimit : settings.maxCycles = some limit) (patience : Nat) (observed : Bool)
    (program : Array UInt8) (m : Machine) :
    ∃ termination last,
      run settings patience observed program (m.withOutput {}) = (some (.ended termination), last) ∧
      (∀ n refusal, ∃ ending cut,
        run settings patience observed program (m.withOutput { room := some n, refusal }) =
          (some ending, cut) ∧
        (ending = .failed refusal ↔ n < last.output.written.size) ∧
        cut.output.written.toList = last.output.written.toList.take n ∧
        (last.output.written.size ≤ n → ending = .ended termination ∧
          cut = last.withOutput
            { last.output with room := some (n - last.output.written.size), refusal })) ∧
      (∀ k, ∃ ending cut,
        run settings patience observed program (m.withOutput { failingFlush := some (k + 1) }) =
          (some ending, cut) ∧
        (ending = .failed .stuck ↔ k < last.output.flushes.size) ∧
        (∀ f, last.output.flushes[k]? = some f →
          cut.output.written.toList = last.output.written.toList.take f ∧
          ((∃ j u byte,
              (Run.start settings observed (m.withOutput {})).advance settings program j =
                (none, u) ∧
              program[u.cursor]? = some byte ∧
              (Opcode.decode byte = .getByte ∨ Opcode.decode byte = .getNumber) ∧
              u.output.flushes.size = k ∧ cut.cycles = u.cycles + 1 ∧
              cut.machine = u.machine.withOutput cut.output) ∨
            (k + 1 = last.output.flushes.size ∧ cut = last.withOutput cut.output))) ∧
        (last.output.flushes.size ≤ k → ending = .ended termination ∧
          cut = last.withOutput { last.output with failingFlush := some (k + 1) })) := by
  have hfuel : fuel settings patience = limit + 1 := by simp [fuel, hlimit]
  obtain ⟨ending, last, hrun, -⟩ : ∃ ending last,
      (Run.start settings observed (m.withOutput {})).advance settings program (limit + 1) =
        (some ending, last) ∧ last.cycles ≤ limit :=
    Run.advance_ends program hlimit (Nat.zero_le limit) (by simp [Run.start])
  have hout : (m.withOutput {}).console.NeverFails := Output.Unlimited.neverFails ⟨rfl, rfl⟩
  obtain ⟨termination, rfl⟩ := Run.advance_ending settings program
    (r := Run.start settings observed (m.withOutput {})) hout (congrArg Prod.fst hrun)
  simp only [run, hfuel]
  refine ⟨termination, last, hrun, ?_, ?_⟩
  · intro n refusal
    exact Run.advance_withRoom (r := Run.start settings observed m) hrun n refusal
  · intro k
    exact Run.advance_failingFlush (r := Run.start settings observed m) hrun k

/-- A program that writes a prompt and reads, and whose first flush fails. -/
theorem run_withOutput_failing_prompt :
    ∃ cut,
      run { maxCycles := some 9 } 0 false #[65, 67, 68]
          (withOutput { failingFlush := some 1 }
            (create {} ⟨{ rest := [66] }, {}⟩ (RandomSource.ofSeed 0) { seconds := fun _ => 0 })) =
        (some (.failed .stuck), cut) ∧
      cut.output.written.toList = [65] := by
  have hrun : run { maxCycles := some 9 } 0 false #[65, 67, 68]
      (withOutput {}
        (create {} ⟨{ rest := [66] }, {}⟩ (RandomSource.ofSeed 0) { seconds := fun _ => 0 })) =
      (some (.ended .completed), _) := Prod.ext (by decide) rfl
  obtain ⟨termination, last, hrun', -, hflush⟩ :=
    run_withOutput_failing { maxCycles := some 9 } 9 rfl 0 false #[65, 67, 68]
      (create {} ⟨{ rest := [66] }, {}⟩ (RandomSource.ofSeed 0) { seconds := fun _ => 0 })
  obtain rfl := (Prod.mk.inj (hrun.symm.trans hrun')).2
  obtain ⟨ending, cut, hcut, hending, hwritten, -⟩ := hflush 0
  obtain rfl : ending = .failed .stuck := hending.mpr (by decide)
  exact ⟨cut, hcut, (hwritten 1 (by decide)).1.trans (by decide)⟩

end Machine

end ErrorFree
