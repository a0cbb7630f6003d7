import ErrorFree.Proofs.Machine.NeverFails
import ErrorFree.Proofs.Machine.Requests
import Mathlib.Data.ENat.Lattice
import Mathlib.Order.CompletePartialOrder

/-!
# A cycle limit only truncates

**Length of a run.**  `Machine.duration` is the number of cycles that a run takes without a limit,
infinite if it never ends.

**Comparison.**  A turn below the limit is the turn of the run without one (`turn_withLimit`).  So
the run with a limit goes through states of the run without, and ends at the limit or where that one
ends, whichever comes first (`advance_withLimit`).

**Result.**  `run_withLimit`: cycles, ending and last state of a run with a limit, read off the run
without; and what a greater limit changes.
-/

namespace ErrorFree

/-- The settings with another cycle limit, or with none. -/
def RuntimeSettings.withLimit (limit : Option Nat) (settings : RuntimeSettings) :
    RuntimeSettings :=
  { settings with maxCycles := limit }

namespace Run

variable (settings : RuntimeSettings) (program : Array UInt8) {r u : Run} {limit fuel more : Nat}

/-- The run after the flush at its end. -/
def flushed (r : Run) : Run := { r with machine := r.machine.flushed }

section Cycles

variable {settings program}

theorem cycles_turn_le : r.cycles ≤ (r.turn settings program).2.cycles := by
  rcases turn_cases settings program r with ⟨_, heq⟩ | ⟨_, _, _, heq⟩ | ⟨byte, _, _, heq⟩
  · rw [heq, finish_eq]
    exact Nat.le_refl _
  · rw [heq, finish_eq]
    exact Nat.le_refl _
  · rw [heq, observe_eq, step_eq]
    exact Nat.le_succ _

theorem cycles_advance (h : r.advance settings program fuel = (none, u)) :
    u.cycles = r.cycles + fuel := by
  induction fuel generalizing r with
  | zero =>
      obtain ⟨_, rfl⟩ := Prod.mk.inj h
      rfl
  | succ fuel ih =>
      rcases hturn : r.turn settings program with ⟨_ | ending, next⟩
      · rw [advance_of_going hturn] at h
        have hcycles := turn_cycles program hturn
        have hrest := ih h
        omega
      · rw [advance_of_ended hturn] at h
        cases h

/-- A run that has ended stays as it is. -/
theorem advance_of_le {ending : Ending}
    (h : r.advance settings program fuel = (some ending, u)) (hle : fuel ≤ more) :
    r.advance settings program more = (some ending, u) := by
  induction fuel generalizing r more with
  | zero => cases h
  | succ fuel ih =>
      obtain ⟨more, rfl⟩ : ∃ d, more = d + 1 := ⟨more - 1, by omega⟩
      rcases hturn : r.turn settings program with ⟨_ | ending', next⟩
      · rw [advance_of_going hturn] at h ⊢
        exact ih h (by omega)
      · rw [advance_of_ended hturn] at h ⊢
        exact h

variable (settings program) in
theorem cycles_advance_mono (r : Run) (hle : fuel ≤ more) :
    (r.advance settings program fuel).2.cycles ≤ (r.advance settings program more).2.cycles := by
  rcases hrun : r.advance settings program fuel with ⟨_ | ending, u⟩
  · obtain ⟨d, rfl⟩ := Nat.exists_eq_add_of_le hle
    rw [advance_add hrun]
    exact advance_induction settings program (P := fun v => u.cycles ≤ v.cycles)
      (fun v h => Nat.le_trans h cycles_turn_le) (Nat.le_refl _) d
  · rw [advance_of_le hrun hle]

end Cycles

section Limits

theorem turn_withLimit (h : r.cycles < limit) :
    r.turn (settings.withLimit (some limit)) program =
      r.turn (settings.withLimit none) program := by
  have hlimit : r.atLimit (settings.withLimit (some limit)) = false := by
    rw [atLimit_eq rfl]
    simpa using h
  cases hbyte : program[r.cursor]? with
  | none => rw [turn_of_end hbyte, turn_of_end hbyte]
  | some byte =>
      rw [turn_of_byte hbyte hlimit, turn_of_byte hbyte rfl]
      rfl

theorem finish_of_neverFails (h : r.machine.console.NeverFails) (termination : Termination) :
    r.finish termination = (.ended termination, r.flushed) := by
  rw [finish_eq, h.flush.1]
  rfl

/-- Without a limit, and over an output that never fails, every instruction goes on. -/
theorem turn_going (h : r.machine.console.NeverFails) {byte : UInt8}
    (hbyte : program[r.cursor]? = some byte) :
    ∃ next, r.turn (settings.withLimit none) program = (none, next) := by
  rw [turn_of_byte hbyte rfl, observe_eq, step_eq]
  rw [(Machine.exchange_ok h _ _).1]
  exact ⟨_, rfl⟩

/-- A run with a limit goes the way of the run without, up to the limit or to its end. -/
theorem advance_withLimit (h : r.machine.console.NeverFails) (k : Nat) :
    ∃ j u termination, j ≤ k ∧ r.advance (settings.withLimit none) program j = (none, u) ∧
      r.advance (settings.withLimit (some (r.cycles + k))) program (k + 1) =
        (some (.ended termination), u.flushed) ∧
      ((termination = .completed ∧ program[u.cursor]? = none) ∨
        (termination = .cycleLimit ∧ j = k ∧ ∃ byte, program[u.cursor]? = some byte)) := by
  induction k generalizing r with
  | zero =>
      cases hbyte : program[r.cursor]? with
      | none =>
          have hturn : r.turn (settings.withLimit (some r.cycles)) program = _ :=
            turn_of_end hbyte
          rw [finish_of_neverFails h] at hturn
          exact ⟨0, r, .completed, Nat.le_refl 0, rfl, advance_of_ended hturn 0,
            Or.inl ⟨rfl, hbyte⟩⟩
      | some byte =>
          have hlimit : r.atLimit (settings.withLimit (some r.cycles)) = true := by
            rw [atLimit_eq rfl]
            simp
          have hturn := turn_of_limit hbyte hlimit
          rw [finish_of_neverFails h] at hturn
          exact ⟨0, r, .cycleLimit, Nat.le_refl 0, rfl, advance_of_ended hturn 0,
            Or.inr ⟨rfl, rfl, byte, hbyte⟩⟩
  | succ k ih =>
      cases hbyte : program[r.cursor]? with
      | none =>
          have hturn : r.turn (settings.withLimit (some (r.cycles + (k + 1)))) program = _ :=
            turn_of_end hbyte
          rw [finish_of_neverFails h] at hturn
          exact ⟨0, r, .completed, Nat.zero_le _, rfl, advance_of_ended hturn (k + 1),
            Or.inl ⟨rfl, hbyte⟩⟩
      | some byte =>
          obtain ⟨next, hgo⟩ := turn_going settings program h hbyte
          have hkeep := turn_neverFails (settings.withLimit none) program h
          rw [hgo] at hkeep
          have hcycles : r.cycles + (k + 1) = next.cycles + k := by
            rw [turn_cycles program hgo]
            omega
          have hbelow : r.cycles < r.cycles + (k + 1) := by omega
          have hturn := turn_withLimit settings program hbelow
          rw [hgo] at hturn
          obtain ⟨j, u, termination, hj, hu, hend, hcase⟩ := ih hkeep
          refine ⟨j + 1, u, termination, by omega, ?_, ?_, ?_⟩
          · rw [advance_of_going hgo]
            exact hu
          · rw [advance_of_going hturn, hcycles]
            exact hend
          · rcases hcase with hdone | ⟨hterm, rfl, hmore⟩
            · exact Or.inl hdone
            · exact Or.inr ⟨hterm, rfl, hmore⟩

end Limits

section Output

theorem serveAll_of_neverFails (h : r.machine.console.NeverFails)
    (requests : List Output.Request) :
    Output.serveAll requests r.output = (.ok (), (Output.serveAll requests r.output).2) :=
  Prod.ext (h requests) rfl

/-- The bytes handed over by a run are those before it, and those that it asks to write. -/
theorem handed_advance (h : r.machine.console.NeverFails) (fuel : Nat) :
    (r.advance settings program fuel).2.output.handed =
      r.output.handed ++ Output.bytesOf (r.conversation settings program fuel) := by
  have hserved := serveAll_of_neverFails h (r.conversation settings program fuel)
  rw [advance_output settings program hserved]
  exact Output.handed_serveAll (h _)

theorem written_flushed (h : r.machine.console.NeverFails) :
    r.flushed.output.written.toList = r.output.handed :=
  Output.written_flush h.flush.1

end Output

end Run

namespace Machine

variable (settings : RuntimeSettings) (observed : Bool) (program : Array UInt8) (m : Machine)

/-- The number of cycles of a run without a cycle limit, infinite if it never ends: the least number
that is not below the cycles of any of its states. -/
noncomputable def duration : ℕ∞ :=
  ⨆ patience, ((run (settings.withLimit none) patience observed program m).2.cycles : ℕ∞)

theorem run_withLimit_none (patience : Nat) :
    run (settings.withLimit none) patience observed program m =
      (Run.start settings observed m).advance (settings.withLimit none) program patience := rfl

theorem cycles_le_duration (patience : Nat) :
    ((run (settings.withLimit none) patience observed program m).2.cycles : ℕ∞) ≤
      duration settings observed program m :=
  le_iSup (fun patience =>
    ((run (settings.withLimit none) patience observed program m).2.cycles : ℕ∞)) patience

variable {settings observed program m}

theorem duration_of_ended {patience : Nat} {ending : Ending} {last : Run}
    (h : run (settings.withLimit none) patience observed program m = (some ending, last)) :
    duration settings observed program m = last.cycles := by
  apply le_antisymm
  · apply iSup_le
    intro other
    rw [Nat.cast_le]
    rw [run_withLimit_none] at h ⊢
    rcases Nat.le_total other patience with hle | hle
    · have hmono := Run.cycles_advance_mono (settings.withLimit none) program
        (Run.start settings observed m) hle
      rw [h] at hmono
      exact hmono
    · rw [Run.advance_of_le h hle]
  · have hle := cycles_le_duration settings observed program m patience
    rw [h] at hle
    exact hle

theorem duration_eq_top_iff :
    duration settings observed program m = ⊤ ↔
      ∀ patience, (run (settings.withLimit none) patience observed program m).1 = none := by
  constructor
  · intro htop patience
    rcases hrun : run (settings.withLimit none) patience observed program m with ⟨_ | ending, last⟩
    · rfl
    · rw [duration_of_ended hrun] at htop
      exact absurd htop (ENat.natCast_ne_top _)
  · intro hnever
    rw [ENat.eq_top_iff_forall_ge]
    intro n
    have hle := cycles_le_duration settings observed program m n
    rcases hrun : run (settings.withLimit none) n observed program m with ⟨_ | ending, u⟩
    · have hcycles : u.cycles = 0 + n := Run.cycles_advance hrun
      rw [hrun, hcycles, Nat.zero_add] at hle
      exact hle
    · have hnone := hnever n
      rw [hrun] at hnone
      cases hnone

variable (settings observed program) in
/-- The run with a limit, and the state of the run without that it ends in. -/
theorem run_withLimit_cases (h : m.console.NeverFails) (limit patience : Nat) :
    ∃ u termination, u.machine.console.NeverFails ∧
      run (settings.withLimit none) u.cycles observed program m = (none, u) ∧
      run (settings.withLimit (some limit)) patience observed program m =
        (some (.ended termination), u.flushed) ∧
      ((termination = .completed ∧ u.cycles ≤ limit ∧
          duration settings observed program m = u.cycles) ∨
        (termination = .cycleLimit ∧ u.cycles = limit ∧
          (limit : ℕ∞) < duration settings observed program m)) := by
  obtain ⟨j, u, termination, hj, hu, hend, hcase⟩ :=
    Run.advance_withLimit settings program (r := Run.start settings observed m) h limit
  have hcycles : u.cycles = j := by
    rw [Run.cycles_advance hu]
    exact Nat.zero_add j
  have hkeep : u.machine.console.NeverFails := by
    have hall := Run.advance_induction (settings.withLimit none) program
      (P := fun r => r.machine.console.NeverFails)
      (fun r => Run.turn_neverFails (settings.withLimit none) program)
      (r := Run.start settings observed m) h j
    rw [hu] at hall
    exact hall
  have hzero : (Run.start settings observed m).cycles + limit = limit := Nat.zero_add limit
  rw [hzero] at hend
  refine ⟨u, termination, hkeep, ?_, hend, ?_⟩
  · rw [hcycles]
    exact hu
  · rcases hcase with ⟨rfl, hbyte⟩ | ⟨rfl, rfl, byte, hbyte⟩
    · left
      refine ⟨rfl, by omega, ?_⟩
      have hturn : u.turn (settings.withLimit none) program = _ := Run.turn_of_end hbyte
      rw [Run.finish_of_neverFails hkeep] at hturn
      have hrun : run (settings.withLimit none) (j + 1) observed program m =
          (some (.ended .completed), u.flushed) := by
        rw [run_withLimit_none, Run.advance_add hu]
        exact Run.advance_of_ended hturn 0
      have hduration := duration_of_ended hrun
      exact hduration
    · right
      refine ⟨rfl, hcycles, ?_⟩
      obtain ⟨next, hturn⟩ := Run.turn_going settings program hkeep hbyte
      have hrun : run (settings.withLimit none) (j + 1) observed program m = (none, next) := by
        rw [run_withLimit_none, Run.advance_add hu]
        exact Run.advance_of_going hturn 0
      have hle := cycles_le_duration settings observed program m (j + 1)
      rw [hrun, Run.turn_cycles program hturn, hcycles] at hle
      exact lt_of_lt_of_le (Nat.cast_lt.mpr (Nat.lt_succ_self j)) hle

/-- States of a run without a limit, one after the other: what was handed over only grows. -/
theorem handed_prefix {u u' : Run} (hkeep : u.machine.console.NeverFails)
    (hu : run (settings.withLimit none) u.cycles observed program m = (none, u))
    (hu' : run (settings.withLimit none) u'.cycles observed program m = (none, u'))
    (hle : u.cycles ≤ u'.cycles) : u.output.handed <+: u'.output.handed := by
  obtain ⟨d, hd⟩ := Nat.exists_eq_add_of_le hle
  rw [run_withLimit_none] at hu hu'
  rw [hd, Run.advance_add hu] at hu'
  have hhanded := Run.handed_advance (settings.withLimit none) program hkeep d
  rw [hu'] at hhanded
  exact ⟨_, hhanded.symm⟩

/-- **A cycle limit only truncates.**  Over an output that never fails let `duration` be the number
of cycles of the run without a limit: the cycles at its end, infinite if it has none.  The run with
a limit ends after as many cycles, or at the limit, if that is less; it counts as cut short exactly
when the limit is less.  Its last state is the state of the run without a limit after as many
instructions, flushed once, and what is written by then is all that was handed over.

With a greater limit the same is written, or more, and a run that was completed is the same. -/
theorem run_withLimit (settings : RuntimeSettings) (patience : Nat) (observed : Bool)
    (program : Array UInt8) (m : Machine) (hout : m.console.NeverFails) (limit : Nat) :
    ((∀ fuel ending last,
        run (settings.withLimit none) fuel observed program m = (some ending, last) →
          duration settings observed program m = last.cycles) ∧
      (duration settings observed program m = ⊤ ↔
        ∀ fuel, (run (settings.withLimit none) fuel observed program m).1 = none)) ∧
    ∃ termination last u,
      run (settings.withLimit (some limit)) patience observed program m =
        (some (.ended termination), last) ∧
      (last.cycles : ℕ∞) = min (limit : ℕ∞) (duration settings observed program m) ∧
      (termination = .cycleLimit ↔ (limit : ℕ∞) < duration settings observed program m) ∧
      (termination = .completed ↔ duration settings observed program m ≤ limit) ∧
      run (settings.withLimit none) last.cycles observed program m = (none, u) ∧
      last = u.flushed ∧
      last.output.written.toList = u.output.handed ∧
      ∀ limit', limit ≤ limit' → ∃ termination' last',
        run (settings.withLimit (some limit')) patience observed program m =
          (some (.ended termination'), last') ∧
        last.output.written.toList <+: last'.output.written.toList ∧
        (termination = .completed → termination' = .completed ∧ last' = last) := by
  refine ⟨⟨fun _ _ _ => duration_of_ended, duration_eq_top_iff⟩, ?_⟩
  obtain ⟨u, termination, hkeep, hu, hend, hcase⟩ :=
    run_withLimit_cases settings observed program hout limit patience
  have hwritten := Run.written_flushed hkeep
  have hcycles : u.flushed.cycles = u.cycles := rfl
  refine ⟨termination, u.flushed, u, hend, ?_, ?_, ?_, hu, rfl, hwritten, ?_⟩
  · rw [hcycles]
    rcases hcase with ⟨-, hle, hN⟩ | ⟨-, heq, hlt⟩
    · rw [hN, min_eq_right (Nat.cast_le.mpr hle)]
    · rw [heq, min_eq_left hlt.le]
  · rcases hcase with ⟨rfl, hle, hN⟩ | ⟨rfl, -, hlt⟩
    · simp [hN, hle]
    · simp [hlt]
  · rcases hcase with ⟨rfl, hle, hN⟩ | ⟨rfl, -, hlt⟩
    · simp [hN, hle]
    · simp [hlt]
  · intro limit' hle'
    obtain ⟨u', termination', hkeep', hu', hend', hcase'⟩ :=
      run_withLimit_cases settings observed program hout limit' patience
    have hlonger : u.cycles ≤ u'.cycles ∧
        (termination = .completed → termination' = .completed ∧ u'.cycles = u.cycles) := by
      rcases hcase with ⟨rfl, hle, hN⟩ | ⟨rfl, rfl, hlt⟩ <;>
        rcases hcase' with ⟨rfl, -, hN'⟩ | ⟨rfl, rfl, hlt'⟩
      · have hsame : u'.cycles = u.cycles := Nat.cast_inj.mp (hN'.symm.trans hN)
        exact ⟨hsame.ge, fun _ => ⟨rfl, hsame⟩⟩
      · rw [hN, Nat.cast_lt] at hlt'
        omega
      · rw [hN', Nat.cast_lt] at hlt
        exact ⟨hlt.le, fun h => by cases h⟩
      · exact ⟨hle', fun h => by cases h⟩
    refine ⟨termination', u'.flushed, hend', ?_, ?_⟩
    · rw [hwritten, Run.written_flushed hkeep']
      exact handed_prefix hkeep hu hu' hlonger.1
    · intro hcompleted
      obtain ⟨hterm, hsame⟩ := hlonger.2 hcompleted
      rw [hsame, hu] at hu'
      obtain ⟨-, rfl⟩ := Prod.mk.inj hu'
      exact ⟨hterm, rfl⟩

/-- A program of two instructions under a limit of two cycles: it is not cut short. -/
theorem run_withLimit_exact :
    Console.NeverFails ⟨{ rest := [] }, {}⟩ ∧
    duration {} false #[65, 67]
      (create {} ⟨{ rest := [] }, {}⟩ (RandomSource.ofSeed 0) { seconds := fun _ => 0 }) = 2 ∧
    ∃ last, run (RuntimeSettings.withLimit (some 2) {}) 0 false #[65, 67]
        (create {} ⟨{ rest := [] }, {}⟩ (RandomSource.ofSeed 0) { seconds := fun _ => 0 }) =
      (some (.ended .completed), last) := by
  have hout : Console.NeverFails ⟨{ rest := [] }, {}⟩ := Output.Unlimited.neverFails ⟨rfl, rfl⟩
  have hfree : run (RuntimeSettings.withLimit none {}) 3 false #[65, 67]
      (create {} ⟨{ rest := [] }, {}⟩ (RandomSource.ofSeed 0) { seconds := fun _ => 0 }) =
      (some (.ended .completed), _) := Prod.ext (by decide) rfl
  obtain ⟨⟨hcycles, -⟩, termination, last, -, hrun, -, -, hcompleted, -⟩ :=
    run_withLimit {} 0 false #[65, 67] (create {} _ (RandomSource.ofSeed 0) { seconds := fun _ => 0 })
      hout 2
  have hduration : duration {} false #[65, 67]
      (create {} ⟨{ rest := [] }, {}⟩ (RandomSource.ofSeed 0) { seconds := fun _ => 0 }) =
      ((2 : Nat) : ℕ∞) := hcycles _ _ _ hfree
  obtain rfl : termination = .completed := hcompleted.mpr (by rw [hduration])
  exact ⟨hout, hduration, last, hrun⟩

end Machine

end ErrorFree
