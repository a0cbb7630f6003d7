import ErrorFree.Proofs.Machine.Alone
import ErrorFree.Proofs.Machine.Course

/-!
# Progress reports

**Looks.**  `Run.look?` is what the next turn shows to an observer: the reading of the stop watch
and where the run is, before an instruction at every 1024th cycle.  `Run.looks` lists the looks of a
run.

**Due looks.**  `Observer.due` picks the looks that are reported, each by its distance from the one
reported before it.  A turn checks the look it shows (`observer_turn`), so that the reports of a run
are the due ones among its looks (`observer_advance`, `reports_watch`).

**States.**  A run makes its turns in states with consecutive numbers of cycles
(`exists_of_mem_course`, `pairwise_cycles_course`), and it comes through every number below the last
(`exists_mem_course`).

**Result.**  `run_reports`: what is reported, when, and that nothing else depends on the observer.
-/

namespace ErrorFree

namespace Observer

/-- A look at the clock. -/
structure Look where
  /-- The reading of the stop watch. -/
  now : Nat
  /-- Where the run is. -/
  snapshot : Snapshot

/-- The observer after some looks. -/
def watch (o : Observer) (looks : List Look) : Observer :=
  looks.foldl (fun o look => o.check look.now look.snapshot) o

/-- The looks that come half a second or more after the last one that did, or after `last`. -/
def due (last : Nat) : List Look → List Look
  | [] => []
  | look :: rest =>
      if last + reportInterval ≤ look.now then look :: due look.now rest else due last rest

section Due

variable {look : Look} {last : Nat}

theorem watch_nil (o : Observer) : o.watch [] = o := rfl

theorem watch_cons (look : Look) (rest : List Look) (o : Observer) :
    o.watch (look :: rest) = (o.check look.now look.snapshot).watch rest := rfl

theorem watch_append (before rest : List Look) (o : Observer) :
    o.watch (before ++ rest) = (o.watch before).watch rest := List.foldl_append

theorem due_of_le (h : last + reportInterval ≤ look.now) (rest : List Look) :
    due last (look :: rest) = look :: due look.now rest := if_pos h

theorem due_of_lt (h : look.now < last + reportInterval) (rest : List Look) :
    due last (look :: rest) = due last rest := if_neg (Nat.not_le.mpr h)

/-- An observer reports the due looks. -/
theorem reports_watch (looks : List Look) (o : Observer) :
    (o.watch looks).reports.toList =
      o.reports.toList ++ (due o.lastReport looks).map Look.snapshot := by
  induction looks generalizing o with
  | nil => simp [watch_nil, due]
  | cons look rest ih =>
      rw [watch_cons, ih]
      rcases Nat.lt_or_ge look.now (o.lastReport + reportInterval) with hlt | hle
      · rw [check, if_neg (Nat.not_le.mpr hlt), due_of_lt hlt]
      · rw [check, if_pos hle, due_of_le hle]
        simp

theorem due_sublist (last : Nat) (looks : List Look) : (due last looks).Sublist looks := by
  induction looks generalizing last with
  | nil => exact List.Sublist.refl []
  | cons look rest ih =>
      rcases Nat.lt_or_ge look.now (last + reportInterval) with hlt | hle
      · rw [due_of_lt hlt]
        exact (ih last).cons look
      · rw [due_of_le hle]
        exact (ih look.now).cons_cons look

/-- Due looks are half a second or more apart. -/
theorem due_spaced (last : Nat) (looks : List Look) :
    (last :: (due last looks).map Look.now).IsChain fun t t' => t + reportInterval ≤ t' := by
  induction looks generalizing last with
  | nil => exact List.IsChain.singleton last
  | cons look rest ih =>
      rcases Nat.lt_or_ge look.now (last + reportInterval) with hlt | hle
      · rw [due_of_lt hlt]
        exact ih last
      · rw [due_of_le hle]
        exact List.IsChain.cons_cons hle (ih look.now)

/-- After some looks the last report was made at one of them, or is still the one before them. -/
theorem exists_due_append (last : Nat) (before rest : List Look) :
    ∃ t ∈ last :: (due last before).map Look.now,
      due last (before ++ rest) = due last before ++ due t rest := by
  induction before generalizing last with
  | nil => exact ⟨last, List.mem_cons_self, rfl⟩
  | cons look before ih =>
      rcases Nat.lt_or_ge look.now (last + reportInterval) with hlt | hle
      · obtain ⟨t, ht, heq⟩ := ih last
        rw [List.cons_append, due_of_lt hlt, due_of_lt hlt]
        exact ⟨t, ht, heq⟩
      · obtain ⟨t, ht, heq⟩ := ih look.now
        rw [List.cons_append, due_of_le hle, due_of_le hle, heq]
        exact ⟨t, List.mem_cons_of_mem last ht, rfl⟩

/-- A look that is not due comes less than half a second after the start or after an earlier look
that is. -/
theorem mem_due_or_lt (last : Nat) (before rest : List Look) :
    look ∈ due last (before ++ look :: rest) ∨
      ∃ t, (t = last ∨ ∃ earlier ∈ before, earlier ∈ due last (before ++ look :: rest) ∧
          t = earlier.now) ∧
        look.now < t + reportInterval := by
  obtain ⟨t, ht, heq⟩ := exists_due_append last before (look :: rest)
  rw [heq]
  rcases Nat.lt_or_ge look.now (t + reportInterval) with hlt | hle
  · right
    refine ⟨t, ?_, hlt⟩
    rcases List.mem_cons.mp ht with rfl | hmem
    · exact Or.inl rfl
    · obtain ⟨earlier, hearlier, rfl⟩ := List.mem_map.mp hmem
      exact Or.inr ⟨earlier, (due_sublist last before).subset hearlier,
        List.mem_append_left _ hearlier, rfl⟩
  · left
    rw [due_of_le hle]
    exact List.mem_append_right _ List.mem_cons_self

end Due

end Observer

namespace Run

variable (settings : RuntimeSettings) (program : Array UInt8) {r u : Run} {fuel : Nat}

section States

/-- Only a turn with an instruction takes a cycle. -/
theorem cycles_turn (r : Run) :
    (r.turn settings program).2.cycles =
      r.cycles + if (r.instruction? settings program).isSome then 1 else 0 := by
  cases hop : r.instruction? settings program with
  | none =>
      obtain ⟨termination, hturn⟩ := turn_of_no_instruction hop
      rw [hturn, finish_eq]
      rfl
  | some op =>
      obtain ⟨byte, hbyte, rfl, hlimit⟩ := exists_byte_of_instruction hop
      rw [turn_of_byte hbyte hlimit, observe_eq, step_eq]
      rfl

variable {settings program}

theorem advance_succ (h : r.advance settings program fuel = (none, u)) :
    r.advance settings program (fuel + 1) = u.turn settings program := by
  rw [advance_add h 1]
  rcases hturn : u.turn settings program with ⟨_ | ending, next⟩
  · rw [advance_of_going hturn]
    rfl
  · rw [advance_of_ended hturn]

/-- A run comes to each state of its course, after less turns than it gets. -/
theorem exists_of_mem_course (hu : u ∈ r.course settings program fuel) :
    ∃ n, n < fuel ∧ r.advance settings program n = (none, u) := by
  induction fuel generalizing r with
  | zero => cases hu
  | succ fuel ih =>
      rcases hturn : r.turn settings program with ⟨_ | ending, next⟩
      · rw [course_of_going hturn] at hu
        rcases List.mem_cons.mp hu with rfl | hrest
        · exact ⟨0, Nat.succ_pos fuel, rfl⟩
        · obtain ⟨n, hn, hadvance⟩ := ih hrest
          refine ⟨n + 1, Nat.succ_lt_succ hn, ?_⟩
          rw [advance_of_going hturn, hadvance]
      · rw [course_of_ended hturn, List.mem_singleton] at hu
        subst hu
        exact ⟨0, Nat.succ_pos fuel, rfl⟩

variable (settings program) in
theorem pairwise_cycles_course (fuel : Nat) (r : Run) :
    (r.course settings program fuel).Pairwise fun u v => u.cycles < v.cycles := by
  induction fuel generalizing r with
  | zero => exact List.Pairwise.nil
  | succ fuel ih =>
      rcases hturn : r.turn settings program with ⟨_ | ending, next⟩
      · rw [course_of_going hturn]
        refine List.Pairwise.cons ?_ (ih next)
        intro v hv
        obtain ⟨n, -, hadvance⟩ := exists_of_mem_course hv
        have hnext := turn_cycles program hturn
        have hlater := cycles_advance hadvance
        omega
      · rw [course_of_ended hturn]
        exact List.pairwise_singleton _ r

/-- The instruction of a state of the course counts among the cycles in the end. -/
theorem cycles_lt_of_mem_course {op : Opcode} (hu : u ∈ r.course settings program fuel)
    (hop : u.instruction? settings program = some op) :
    u.cycles < (r.advance settings program fuel).2.cycles := by
  obtain ⟨n, hn, hadvance⟩ := exists_of_mem_course hu
  have hmono := cycles_advance_mono settings program r (show n + 1 ≤ fuel from hn)
  rw [advance_succ hadvance, cycles_turn, hop] at hmono
  exact hmono

/-- Every cycle of a run is taken in a state of its course. -/
theorem exists_mem_course {n : Nat} (hfirst : r.cycles ≤ n)
    (hlast : n < (r.advance settings program fuel).2.cycles) :
    ∃ u ∈ r.course settings program fuel, u.cycles = n ∧
      ∃ op, u.instruction? settings program = some op := by
  induction fuel generalizing r with
  | zero => exact absurd hlast (Nat.not_lt.mpr hfirst)
  | succ fuel ih =>
      have hcycles := cycles_turn settings program r
      rcases hturn : r.turn settings program with ⟨_ | ending, next⟩
      · rw [advance_of_going hturn] at hlast
        rw [course_of_going hturn]
        have hnext := turn_cycles program hturn
        rcases Nat.eq_or_lt_of_le hfirst with rfl | hlater
        · exact ⟨r, List.mem_cons_self, rfl, instruction_of_going (by rw [hturn])⟩
        · obtain ⟨u, hu, hn, hop⟩ := ih (by omega) hlast
          exact ⟨u, List.mem_cons_of_mem r hu, hn, hop⟩
      · rw [advance_of_ended hturn] at hlast
        rw [course_of_ended hturn]
        rw [hturn] at hcycles
        dsimp only at hcycles hlast
        -- The last turn takes a cycle only if its instruction has failed.
        cases hop : r.instruction? settings program with
        | none =>
            simp only [hop, Option.isSome_none, Bool.false_eq_true, if_false] at hcycles
            omega
        | some op =>
            simp only [hop, Option.isSome_some, if_true] at hcycles
            exact ⟨r, List.mem_singleton_self r, by omega, op, hop⟩

end States

section Looks

/-- What the next turn shows to an observer, if it carries out an instruction at a cycle at which
progress is checked. -/
def look? (r : Run) : Option Observer.Look :=
  match program[r.cursor]? with
  | none => none
  | some byte =>
      if r.atLimit settings = false ∧ r.cycles % Observer.checkInterval = 0 then
        some ⟨stopwatch r.machine (r.cycles / Observer.checkInterval + 1),
          ⟨r.cursor, program.size, r.cycles, byte⟩⟩
      else none

/-- The looks that a run shows. -/
def looks (fuel : Nat) (r : Run) : List Observer.Look :=
  (r.course settings program fuel).filterMap (look? settings program)

theorem look?_eq_some_iff {look : Observer.Look} :
    r.look? settings program = some look ↔
      ∃ byte, program[r.cursor]? = some byte ∧ r.atLimit settings = false ∧
        r.cycles % Observer.checkInterval = 0 ∧
        look = ⟨stopwatch r.machine (r.cycles / Observer.checkInterval + 1),
          ⟨r.cursor, program.size, r.cycles, byte⟩⟩ := by
  unfold look?
  cases hbyte : program[r.cursor]? with
  | none => simp only [reduceCtorEq, false_and, exists_const]
  | some byte =>
      simp only [Option.ite_none_right_eq_some, Option.some.injEq, exists_eq_left', and_assoc,
        eq_comm (a := look)]

theorem observer_observe {o : Observer} (h : r.observer = some o) (length : Nat) (byte : UInt8) :
    (r.observe length byte).observer =
      if r.cycles % Observer.checkInterval = 0 then
        some (o.check (stopwatch r.machine (r.cycles / Observer.checkInterval + 1))
          ⟨r.cursor, length, r.cycles, byte⟩)
      else some o := by
  by_cases hcheck : r.cycles % Observer.checkInterval = 0
  · simp only [observe, h, hcheck, if_true]
  · simp only [observe, h, hcheck, if_false]

/-- A turn lets an observer check the look it shows, and nothing else. -/
theorem observer_turn {o : Observer} (h : r.observer = some o) :
    (r.turn settings program).2.observer =
      some (o.watch (r.look? settings program).toList) := by
  rcases turn_cases settings program r with
      ⟨hbyte, heq⟩ | ⟨byte, hbyte, hlimit, heq⟩ | ⟨byte, hbyte, hlimit, heq⟩
  · have hlook : r.look? settings program = none := by simp [look?, hbyte]
    rw [heq, finish_eq, hlook]
    exact h
  · have hlook : r.look? settings program = none := by simp [look?, hbyte, hlimit]
    rw [heq, finish_eq, hlook]
    exact h
  · rw [heq, step_eq]
    dsimp only
    rw [observer_observe h]
    by_cases hcheck : r.cycles % Observer.checkInterval = 0
    · have hlook := (look?_eq_some_iff settings program).mpr ⟨byte, hbyte, hlimit, hcheck, rfl⟩
      -- No `rfl` here: to unfold `check` is to count up to the interval.
      rw [if_pos hcheck, hlook, Option.toList_some, Observer.watch_cons, Observer.watch_nil]
    · have hlook : r.look? settings program = none := by simp [look?, hbyte, hcheck]
      rw [if_neg hcheck, hlook, Option.toList_none, Observer.watch_nil]

theorem observer_advance {o : Observer} (h : r.observer = some o) (fuel : Nat) :
    (r.advance settings program fuel).2.observer =
      some (o.watch (r.looks settings program fuel)) := by
  induction fuel generalizing r o with
  | zero => exact h
  | succ fuel ih =>
      have hfirst := observer_turn settings program h
      rcases hturn : r.turn settings program with ⟨_ | ending, next⟩
      · rw [hturn] at hfirst
        have hlooks : r.looks settings program (fuel + 1) =
            (r.look? settings program).toList ++ next.looks settings program fuel := by
          rw [looks, course_of_going hturn]
          cases hlook : r.look? settings program <;> simp [hlook, looks]
        rw [advance_of_going hturn, ih hfirst, hlooks, Observer.watch_append]
      · rw [hturn] at hfirst
        have hlooks : r.looks settings program (fuel + 1) = (r.look? settings program).toList := by
          rw [looks, course_of_ended hturn]
          cases hlook : r.look? settings program <;> simp [hlook]
        rw [advance_of_ended hturn, hlooks]
        exact hfirst

theorem pairwise_cycles_looks (fuel : Nat) (r : Run) :
    (r.looks settings program fuel).Pairwise fun look later =>
      look.snapshot.cycles < later.snapshot.cycles := by
  refine (pairwise_cycles_course settings program fuel r).filterMap _ ?_
  intro u v hlt look hlook later hlater
  obtain ⟨-, -, -, -, rfl⟩ := (look?_eq_some_iff settings program).mp hlook
  obtain ⟨-, -, -, -, rfl⟩ := (look?_eq_some_iff settings program).mp hlater
  exact hlt

end Looks

end Run

/-- What a report says is so: after `cycles` instructions, a multiple of 1024, the run without an
observer has the byte at the cursor before it. -/
structure Snapshot.Faithful (settings : RuntimeSettings) (program : Array UInt8) (m : Machine)
    (s : Snapshot) : Prop where
  length_eq : s.length = program.size
  cursor_lt : s.cursor < s.length
  byte_eq : program[s.cursor]? = some s.byte
  dvd_cycles : 1024 ∣ s.cycles
  reached : ∃ u, (Run.start settings false m).advance settings program s.cycles = (none, u) ∧
    u.cycles = s.cycles ∧ u.cursor = s.cursor

namespace Machine

variable (settings : RuntimeSettings) (program : Array UInt8) (m : Machine)

/-- The stop watch, in nanoseconds, when progress is checked after `n` instructions. -/
def reading (n : Nat) : Nat :=
  Run.stopwatch ((Run.start settings false m).advance settings program n).2.machine
    (n / Observer.checkInterval + 1)

variable {settings program m} {look : Observer.Look} {fuel : Nat}

/-- An observed run comes to the states of the run without an observer. -/
theorem advance_of_observed {u : Run}
    (h : (Run.start settings true m).advance settings program fuel = (none, u)) :
    (Run.start settings false m).advance settings program fuel = (none, u.unobserved) := by
  have hsame := Run.advance_unobserved settings program fuel (Run.start settings true m)
  rw [h] at hsame
  exact hsame

/-- The looks of an observed run are faithful, and show the clock of the run without an observer. -/
theorem faithful_of_mem_looks
    (h : look ∈ (Run.start settings true m).looks settings program fuel) :
    look.snapshot.Faithful settings program m ∧
      look.now = m.reading settings program look.snapshot.cycles ∧
      look.snapshot.cycles <
        ((Run.start settings true m).advance settings program fuel).2.cycles := by
  obtain ⟨u, hu, hlook⟩ := List.mem_filterMap.mp h
  obtain ⟨byte, hbyte, hlimit, hcheck, rfl⟩ := (Run.look?_eq_some_iff settings program).mp hlook
  obtain ⟨n, -, hadvance⟩ := Run.exists_of_mem_course hu
  obtain rfl : u.cycles = n := (Run.cycles_advance hadvance).trans (Nat.zero_add n)
  have hplain := advance_of_observed hadvance
  have hop : u.instruction? settings program = some (Opcode.decode byte) := by
    simp [Run.instruction?, hbyte, hlimit]
  refine ⟨⟨rfl, ?_, hbyte, Nat.dvd_of_mod_eq_zero hcheck, u.unobserved, hplain, rfl, rfl⟩, ?_, ?_⟩
  · exact (Array.getElem?_eq_some_iff.mp hbyte).1
  · dsimp only [reading]
    rw [hplain]
    rfl
  · exact Run.cycles_lt_of_mem_course hu hop

/-- Progress is checked at every multiple of 1024 that the cycles of a run go past. -/
theorem exists_mem_looks {n : Nat} (hdvd : 1024 ∣ n)
    (hlast : n < ((Run.start settings true m).advance settings program fuel).2.cycles) :
    ∃ look ∈ (Run.start settings true m).looks settings program fuel,
      look.snapshot.cycles = n := by
  obtain ⟨u, hu, rfl, op, hop⟩ := Run.exists_mem_course (Nat.zero_le n) hlast
  obtain ⟨byte, hbyte, -, hlimit⟩ := Run.exists_byte_of_instruction hop
  have hlook := (Run.look?_eq_some_iff settings program).mpr
    ⟨byte, hbyte, hlimit, Nat.mod_eq_zero_of_dvd hdvd, rfl⟩
  exact ⟨_, List.mem_filterMap.mpr ⟨u, hu, hlook⟩, rfl⟩

section Reported

variable (settings program m)

/-- The looks that an observed run reports. -/
def reported (fuel : Nat) : List Observer.Look :=
  Observer.due (Run.stopwatch m 0) ((Run.start settings true m).looks settings program fuel)

theorem exists_observer (fuel : Nat) :
    ∃ o, ((Run.start settings true m).advance settings program fuel).2.observer = some o ∧
      o.reports.toList = (m.reported settings program fuel).map Observer.Look.snapshot := by
  refine ⟨_, Run.observer_advance settings program rfl fuel, ?_⟩
  rw [Observer.reports_watch]
  exact List.nil_append _

variable {settings program m}

theorem mem_looks_of_mem_reported (h : look ∈ m.reported settings program fuel) :
    look ∈ (Run.start settings true m).looks settings program fuel :=
  (Observer.due_sublist _ _).subset h

variable (settings program m) in
theorem map_now_reported (fuel : Nat) :
    (m.reported settings program fuel).map Observer.Look.now =
      ((m.reported settings program fuel).map Observer.Look.snapshot).map fun s =>
        m.reading settings program s.cycles := by
  rw [List.map_map]
  apply List.map_congr_left
  intro look hlook
  exact (faithful_of_mem_looks (mem_looks_of_mem_reported hlook)).2.1

/-- A check that is not reported comes too early for it. -/
theorem reported_or_lt {n : Nat} (hdvd : 1024 ∣ n)
    (hlast : n < ((Run.start settings true m).advance settings program fuel).2.cycles) :
    (∃ look ∈ m.reported settings program fuel, look.snapshot.cycles = n) ∨
      ∃ t, (t = Run.stopwatch m 0 ∨
          ∃ look ∈ m.reported settings program fuel, look.snapshot.cycles < n ∧ t = look.now) ∧
        m.reading settings program n < t + Observer.reportInterval := by
  obtain ⟨look, hlook, rfl⟩ := exists_mem_looks hdvd hlast
  have hnow := (faithful_of_mem_looks hlook).2.1
  have hordered := Run.pairwise_cycles_looks settings program fuel (Run.start settings true m)
  obtain ⟨before, rest, hsplit⟩ := List.append_of_mem hlook
  rw [hsplit, List.pairwise_append] at hordered
  rw [← hnow]
  unfold reported
  rw [hsplit]
  rcases Observer.mem_due_or_lt (Run.stopwatch m 0) before rest with
      hdue | ⟨t, hstart | ⟨earlier, hbefore, hdue, rfl⟩, hlt⟩
  · exact Or.inl ⟨look, hdue, rfl⟩
  · exact Or.inr ⟨t, Or.inl hstart, hlt⟩
  · have hless := hordered.2.2 earlier hbefore look List.mem_cons_self
    exact Or.inr ⟨earlier.now, Or.inr ⟨earlier, hdue, hless, rfl⟩, hlt⟩

end Reported

/-- **Progress reports are faithful, spaced, and only reports.**  Whatever the program, the
settings, the input, the random values and the readings of the clocks are, an observed run ends as
the run without an observer, in the same state, as far as it has come; and of the reports so far:

* each says what is so, and comes before an instruction that the cycles count in the end, also if it
  fails;
* the cycles in them are strictly increasing;
* the first comes half a second or more after the start, each later one half a second or more after
  the one before it;
* none is left out: where progress is checked and not reported, less than half a second has passed
  since the start or since an earlier report. -/
theorem run_reports (settings : RuntimeSettings) (patience : Nat) (program : Array UInt8)
    (m : Machine) :
    ∃ ending last o,
      run settings patience false program m = (ending, last) ∧
      run settings patience true program m = (ending, { last with observer := some o }) ∧
      (∀ s ∈ o.reports.toList, s.Faithful settings program m ∧ s.cycles < last.cycles) ∧
      (o.reports.toList.map Snapshot.cycles).Pairwise (· < ·) ∧
      (Run.stopwatch m 0 ::
          o.reports.toList.map fun s => m.reading settings program s.cycles).IsChain
        (fun before now => before + 500 * 1000000 ≤ now) ∧
      (∀ n, 1024 ∣ n → n < last.cycles →
        (∃ s ∈ o.reports.toList, s.cycles = n) ∨
        ∃ t, (t = Run.stopwatch m 0 ∨
            ∃ s ∈ o.reports.toList, s.cycles < n ∧ t = m.reading settings program s.cycles) ∧
          m.reading settings program n < t + 500 * 1000000) := by
  obtain ⟨o, hobserver, hreports⟩ := exists_observer settings program m (fuel settings patience)
  have hplain := run_unobserved settings patience true program (m := m)
  rcases hrun : run settings patience true program m with ⟨ending, last⟩
  have hlast : last = ((Run.start settings true m).advance settings program
      (fuel settings patience)).2 := (congrArg Prod.snd hrun).symm
  rw [← hlast] at hobserver
  rw [hrun] at hplain
  have hsame : last = { last.unobserved with observer := some o } := by
    rw [← hobserver]
    rfl
  refine ⟨ending, last.unobserved, o, hplain, by rw [← hsame], ?_⟩
  rw [hreports]
  refine ⟨?_, ?_, ?_, ?_⟩
  · intro s hs
    obtain ⟨look, hlook, rfl⟩ := List.mem_map.mp hs
    obtain ⟨hfaithful, -, hcycles⟩ := faithful_of_mem_looks (mem_looks_of_mem_reported hlook)
    exact ⟨hfaithful, hlast ▸ hcycles⟩
  · rw [List.map_map, List.pairwise_map]
    exact (Run.pairwise_cycles_looks settings program _ _).sublist (Observer.due_sublist _ _)
  · rw [← map_now_reported]
    exact Observer.due_spaced _ _
  · intro n hdvd hn
    rcases reported_or_lt hdvd (hlast ▸ hn) with
        ⟨look, hlook, hcycles⟩ | ⟨t, hstart | ⟨look, hlook, hless, rfl⟩, hlt⟩
    · exact Or.inl ⟨look.snapshot, List.mem_map_of_mem hlook, hcycles⟩
    · exact Or.inr ⟨t, Or.inl hstart, hlt⟩
    · have hnow := (faithful_of_mem_looks (mem_looks_of_mem_reported hlook)).2.1
      exact Or.inr ⟨look.now,
        Or.inr ⟨look.snapshot, List.mem_map_of_mem hlook, hless, hnow⟩, hlt⟩

/-- A machine whose stop watch is read every half second. -/
def halfSeconds : Machine :=
  create {} ⟨{ rest := [] }, {}⟩ (RandomSource.ofSeed 0)
    { seconds := fun _ => 0, stopwatch := fun k => k * 500000000 }

/-- Half a second after the start is time enough for a report, before the first instruction. -/
theorem run_reports_at_once :
    ∃ last o,
      run { maxCycles := some 9 } 0 true #[65] halfSeconds = (some (.ended .completed), last) ∧
      last.observer = some o ∧
      ∃ s ∈ o.reports.toList, s.cycles = 0 ∧ s.cursor = 0 ∧ s.byte = 65 := by
  have hplain : run { maxCycles := some 9 } 0 false #[65] halfSeconds =
      (some (.ended .completed), _) := Prod.ext (by decide) rfl
  obtain ⟨ending, last, o, hrun, hobserved, hfaithful, -, -, hnone⟩ :=
    run_reports { maxCycles := some 9 } 0 #[65] halfSeconds
  obtain ⟨rfl, rfl⟩ := Prod.mk.inj (hplain.symm.trans hrun)
  rcases hnone 0 (by decide) (by decide) with
      ⟨s, hs, hcycles⟩ | ⟨t, rfl | ⟨s, -, hless, -⟩, hearly⟩
  · obtain ⟨-, -, hbyte, -, u, hu, -, hcursor⟩ := (hfaithful s hs).1
    rw [hcycles] at hu
    obtain ⟨-, rfl⟩ := Prod.mk.inj hu
    have hzero : s.cursor = 0 := hcursor.symm
    rw [hzero] at hbyte
    exact ⟨_, o, hobserved, rfl, s, hs, hcycles, hzero, (Option.some.inj hbyte).symm⟩
  · exact absurd hearly (by decide)
  · exact absurd hless (Nat.not_lt_zero _)

end Machine

end ErrorFree
