import ErrorFree.Proofs.Machine.Course

/-!
# Prompts

What a program has written is visible before it waits for input.

**Acts.**  An instruction deals with the console in single acts: requests to the output and attempts
to read (`Machine.acts`).  `Run.history` lists the acts of a run.  That these are the acts of the run,
in their order, is `actAll_history`: over any output, also over one that fails in the middle, to do
them one after the other up to the first failure leaves the console as the run leaves it, and fails
as the run fails.  An attempt to read before a flush that fails would show there.

**Result.**  `run_prompts`: every attempt to read comes right after a flush, and the flushes of a run
are those before its reads and the one at its end.
-/

namespace ErrorFree

namespace Ending

/-- What the output has answered in the end. -/
def result : Option Ending → Except IoError Unit
  | some (.failed e) => .error e
  | _ => .ok ()

theorem result_of_not_failed {ending : Option Ending} (h : ∀ e, ending ≠ some (.failed e)) :
    result ending = .ok () := by
  rcases ending with _ | _ | e
  · rfl
  · rfl
  · exact absurd rfl (h e)

end Ending

namespace Console

/-- What happens on a console, one thing at a time. -/
inductive Act where
  | ask (request : Output.Request)
  | readByte
  | readLine

namespace Act

def isRead : Act → Bool
  | .ask _ => false
  | .readByte | .readLine => true

/-- The bytes that an act writes. -/
def bytes : Act → List UInt8
  | .ask request => request.bytes
  | .readByte | .readLine => []

end Act

/-- Does a single thing. -/
def act (c : Console) : Act → Except IoError Unit × Console
  | .ask request => ((c.output.serve request).1, ⟨c.input, (c.output.serve request).2⟩)
  | .readByte => (.ok (), ⟨c.input.readByte.2, c.output⟩)
  | .readLine => (.ok (), ⟨c.input.readLine.2, c.output⟩)

/-- Does one thing after the other, up to the first failure. -/
def actAll : List Act → Console → Except IoError Unit × Console
  | [], c => (.ok (), c)
  | a :: rest, c =>
      match c.act a with
      | (.ok _, c) => actAll rest c
      | (.error e, c) => (.error e, c)

variable {c c' : Console} {a : Act} {acts first second : List Act} {e : IoError}

theorem actAll_cons_of_ok (h : c.act a = (.ok (), c')) (rest : List Act) :
    actAll (a :: rest) c = actAll rest c' := by
  rw [actAll, h]

theorem actAll_cons_of_error (h : c.act a = (.error e, c')) (rest : List Act) :
    actAll (a :: rest) c = (.error e, c') := by
  rw [actAll, h]

theorem actAll_append_of_ok (h : actAll first c = (.ok (), c')) (second : List Act) :
    actAll (first ++ second) c = actAll second c' := by
  induction first generalizing c with
  | nil =>
      obtain ⟨-, rfl⟩ := Prod.mk.inj h
      rfl
  | cons a rest ih =>
      rcases hact : c.act a with ⟨e | _, next⟩
      · rw [actAll_cons_of_error hact] at h
        cases h
      · rw [actAll_cons_of_ok hact] at h
        rw [List.cons_append, actAll_cons_of_ok hact]
        exact ih h

theorem actAll_append_of_error (h : actAll first c = (.error e, c')) (second : List Act) :
    actAll (first ++ second) c = (.error e, c') := by
  induction first generalizing c with
  | nil => cases h
  | cons a rest ih =>
      rcases hact : c.act a with ⟨e' | _, next⟩
      · rw [actAll_cons_of_error hact] at h
        rw [List.cons_append, actAll_cons_of_error hact]
        exact h
      · rw [actAll_cons_of_ok hact] at h
        rw [List.cons_append, actAll_cons_of_ok hact]
        exact ih h

/-- Acts that were all done were done up to any of them. -/
theorem actAll_of_append (h : actAll (first ++ second) c = (.ok (), c')) :
    ∃ between, actAll first c = (.ok (), between) ∧ actAll second between = (.ok (), c') := by
  rcases hfirst : actAll first c with ⟨e | _, between⟩
  · rw [actAll_append_of_error hfirst] at h
    cases h
  · rw [actAll_append_of_ok hfirst] at h
    exact ⟨between, rfl, h⟩

theorem actAll_ask (requests : List Output.Request) (c : Console) :
    actAll (requests.map .ask) c =
      ((Output.serveAll requests c.output).1,
        ⟨c.input, (Output.serveAll requests c.output).2⟩) := by
  induction requests generalizing c with
  | nil => rfl
  | cons request rest ih =>
      rw [List.map_cons, Output.serveAll]
      rcases hserve : c.output.serve request with ⟨e | _, o⟩
      · have hact : c.act (.ask request) = (.error e, ⟨c.input, o⟩) := by rw [act, hserve]
        rw [actAll_cons_of_error hact]
        rfl
      · have hact : c.act (.ask request) = (.ok (), ⟨c.input, o⟩) := by rw [act, hserve]
        rw [actAll_cons_of_ok hact, ih]
        rfl

/-- Acts that were all done have handed over their bytes. -/
theorem handed_actAll (h : actAll acts c = (.ok (), c')) :
    c'.output.handed = c.output.handed ++ acts.flatMap Act.bytes := by
  induction acts generalizing c with
  | nil =>
      obtain ⟨-, rfl⟩ := Prod.mk.inj h
      simp
  | cons a rest ih =>
      rcases hact : c.act a with ⟨e | _, next⟩
      · rw [actAll_cons_of_error hact] at h
        cases h
      · rw [actAll_cons_of_ok hact] at h
        have hnext : next.output.handed = c.output.handed ++ a.bytes := by
          obtain ⟨hok, rfl⟩ := Prod.mk.inj hact
          cases a with
          | ask request => exact (Output.adds_serve c.output request hok).2
          | readByte => exact (List.append_nil _).symm
          | readLine => exact (List.append_nil _).symm
        rw [ih h, hnext, List.flatMap_cons, List.append_assoc]

/-- After a flush everything that was handed over is with the device. -/
theorem written_of_flushed (h : actAll (acts ++ [.ask .flush]) c = (.ok (), c')) :
    c'.output.written.toList = c.output.handed ++ (acts ++ [Act.ask .flush]).flatMap Act.bytes ∧
      (c'.output.lineBuffered = false →
        c'.output.flushes.back? = some c'.output.written.size) := by
  obtain ⟨between, hbefore, hflush⟩ := actAll_of_append h
  obtain ⟨hok, rfl⟩ : between.output.flush.1 = .ok () ∧
      (⟨between.input, between.output.flush.2⟩ : Console) = c' := by
    have hask := actAll_ask [.flush] between
    rw [Output.serveAll_singleton] at hask
    exact Prod.mk.inj (hask.symm.trans hflush)
  have hbytes : (acts ++ [Act.ask .flush]).flatMap Act.bytes = acts.flatMap Act.bytes := by
    simp [Act.bytes, Output.Request.bytes]
  constructor
  · rw [hbytes, ← handed_actAll hbefore]
    exact Output.written_flush hok
  · intro hline
    have hline' : between.output.lineBuffered = false :=
      (congrArg Output.lineBuffered (Output.unwritten_flush between.output)).symm.trans hline
    have hwritten : between.output.flush.2.written = between.output.written := by
      rw [Output.flush_ok hok, if_neg (by simp [hline'])]
      rfl
    simp only [Output.flushes_flush, Array.back?_push, hwritten]

end Console

namespace Machine

variable (settings : RuntimeSettings)

/-- The attempts of an instruction to read. -/
def attempts (op : Opcode) : List Console.Act :=
  match op with
  | .getByte => if settings.autoZero then [] else [.readByte]
  | .getNumber => if settings.autoZero then [] else [.readLine]
  | _ => []

/-- What an instruction does on the console. -/
def acts (op : Opcode) (m : Machine) : List Console.Act :=
  (m.requests settings op).map .ask ++ attempts settings op

theorem actAll_attempts (op : Opcode) (m : Machine) (o : Output) :
    Console.actAll (attempts settings op) ⟨m.console.input, o⟩ =
      (.ok (), ⟨m.taken settings op, o⟩) := by
  cases op with
  | getByte => cases hauto : settings.autoZero <;> simp [attempts, taken, hauto] <;> rfl
  | getNumber => cases hauto : settings.autoZero <;> simp [attempts, taken, hauto] <;> rfl
  | _ => rfl

/-- An instruction deals with the console through its acts, whether the output fails or not. -/
theorem exchange_eq_actAll (op : Opcode) (m : Machine) :
    m.exchange settings op = m.console.actAll (m.acts settings op) := by
  have hask := Console.actAll_ask (m.requests settings op) m.console
  rw [exchange_eq, acts]
  rcases hserve : Output.serveAll (m.requests settings op) m.console.output with ⟨e | _, o⟩
  · rw [hserve] at hask
    rw [Console.actAll_append_of_error hask]
    rfl
  · rw [hserve] at hask
    rw [Console.actAll_append_of_ok hask, actAll_attempts]
    rfl

variable {settings}

/-- An instruction attempts to read right after a flush. -/
theorem acts_of_read {op : Opcode} {m : Machine} {earlier later : List Console.Act}
    {a : Console.Act} (h : m.acts settings op = earlier ++ a :: later) (hread : a.isRead = true) :
    earlier = [.ask .flush] := by
  have hattempt : a ∉ (m.requests settings op).map Console.Act.ask := by
    intro hmem
    obtain ⟨request, -, rfl⟩ := List.mem_map.mp hmem
    cases hread
  have hreads : op.isRead = true ∧ settings.autoZero = false := by
    have hmem : a ∈ m.acts settings op := by simp [h]
    rcases List.mem_append.mp hmem with hask | htry
    · exact absurd hask hattempt
    · cases op with
      | getByte | getNumber =>
          cases hauto : settings.autoZero with
          | true => simp [attempts, hauto] at htry
          | false => exact ⟨rfl, rfl⟩
      | _ => cases htry
  obtain ⟨hop, hauto⟩ := hreads
  rw [acts, requests_of_read settings (Opcode.isRead_iff.mp hop) hauto] at h
  obtain ⟨x, hx⟩ : ∃ x, attempts settings op = [x] := by
    rcases Opcode.isRead_iff.mp hop with rfl | rfl <;> simp [attempts, hauto]
  rw [hx] at h
  -- The two acts are a flush and an attempt; the first of them is no attempt.
  rcases earlier with _ | ⟨b, _ | ⟨d, rest⟩⟩
  · obtain ⟨rfl, -⟩ := List.cons.inj h
    cases hread
  · obtain ⟨rfl, -⟩ := List.cons.inj h
    rfl
  · simp at h

end Machine

namespace Run

variable (settings : RuntimeSettings) (program : Array UInt8) {r : Run} {fuel : Nat}

section History

/-- What the next turn does on the console. -/
def acts (r : Run) : List Console.Act :=
  match r.instruction? settings program with
  | none => [.ask .flush]
  | some op => r.machine.acts settings op

/-- What a run does on the console. -/
def history (fuel : Nat) (r : Run) : List Console.Act :=
  (r.course settings program fuel).flatMap (acts settings program)

theorem actAll_acts (r : Run) :
    r.machine.console.actAll (r.acts settings program) =
      (Ending.result (r.turn settings program).1,
        (r.turn settings program).2.machine.console) := by
  rw [acts]
  cases hop : r.instruction? settings program with
  | none =>
      obtain ⟨termination, hturn⟩ := turn_of_no_instruction hop
      have hask := Console.actAll_ask [.flush] r.machine.console
      rw [Output.serveAll_singleton] at hask
      rw [hturn, finish_eq]
      refine hask.trans (Prod.ext ?_ rfl)
      show r.machine.console.output.flush.1 =
        Ending.result (some (Ending.ofFlush termination r.machine.console.output.flush.1))
      cases r.machine.console.output.flush.1 <;> rfl
  | some op =>
      obtain ⟨hending, hmachine⟩ := turn_of_instruction hop
      rw [hending, hmachine]
      refine (Machine.exchange_eq_actAll settings op r.machine).symm.trans (Prod.ext ?_ rfl)
      show (r.machine.exchange settings op).1 =
        Ending.result (Ending.ofExchange (r.machine.exchange settings op).1)
      cases (r.machine.exchange settings op).1 <;> rfl

/-- The history of a run is what the run does on the console. -/
theorem actAll_history (fuel : Nat) (r : Run) :
    r.machine.console.actAll (r.history settings program fuel) =
      (Ending.result (r.advance settings program fuel).1,
        (r.advance settings program fuel).2.machine.console) := by
  induction fuel generalizing r with
  | zero => rfl
  | succ fuel ih =>
      have hacts := actAll_acts settings program r
      rw [history]
      rcases hturn : r.turn settings program with ⟨_ | ending, next⟩
      · rw [hturn] at hacts
        rw [course_of_going hturn, advance_of_going hturn, List.flatMap_cons,
          Console.actAll_append_of_ok hacts]
        exact ih next
      · rw [hturn] at hacts
        rw [course_of_ended hturn, advance_of_ended hturn, List.flatMap_singleton]
        exact hacts

variable {settings program}

/-- Every attempt to read comes right after a flush. -/
theorem flush_before_read {states : List Run} {earlier later : List Console.Act}
    {a : Console.Act} (h : states.flatMap (acts settings program) = earlier ++ a :: later)
    (hread : a.isRead = true) : ∃ before, earlier = before ++ [.ask .flush] := by
  induction states generalizing earlier with
  | nil => simp at h
  | cons r rest ih =>
      rw [List.flatMap_cons] at h
      rcases List.append_eq_append_iff.mp h with ⟨more, rfl, hrest⟩ | ⟨more, hacts, hrest⟩
      · obtain ⟨before, rfl⟩ := ih hrest
        exact ⟨r.acts settings program ++ before, (List.append_assoc _ _ _).symm⟩
      · cases more with
        | nil =>
            -- The attempt would be the first act of a later turn.
            have hfirst : rest.flatMap (acts settings program) = [] ++ a :: later := hrest.symm
            obtain ⟨before, hbefore⟩ := ih hfirst
            simp at hbefore
        | cons b more =>
            obtain ⟨rfl, -⟩ := List.cons.inj hrest
            refine ⟨[], ?_⟩
            rw [acts] at hacts
            cases hop : r.instruction? settings program with
            | some op =>
                rw [hop] at hacts
                exact Machine.acts_of_read hacts hread
            | none =>
                rw [hop] at hacts
                have hflush : [Console.Act.ask .flush] = earlier ++ a :: more := hacts
                have hmem : a ∈ [Console.Act.ask .flush] := by simp [hflush]
                obtain rfl := List.mem_singleton.mp hmem
                cases hread

end History

section Flushes

/-- The next turn carries out an instruction that reads. -/
def reads (r : Run) : Bool := (r.instruction? settings program).any Opcode.isRead

variable {settings program}

theorem flushing_of_reading (hauto : settings.autoZero = false) (r : Run) :
    r.flushing settings program =
      ((r.instruction? settings program).isNone || r.reads settings program) := by
  rw [flushing, reads]
  cases r.instruction? settings program with
  | none => rfl
  | some op => simp [hauto]

/-- While a run goes on its flushes are those before its reads. -/
theorem filter_flushing_of_going (hauto : settings.autoZero = false) {last : Run}
    (h : r.advance settings program fuel = (none, last)) :
    (r.course settings program fuel).filter (flushing settings program) =
      (r.course settings program fuel).filter (reads settings program) := by
  apply List.filter_congr
  intro u hu
  obtain ⟨op, hop⟩ := instruction_of_going (going_of_mem_course h hu)
  rw [flushing_of_reading hauto, hop]
  rfl

/-- The flushes of a run that has not failed: those before its reads, and one more at its end. -/
theorem flushes_of_not_failed (hauto : settings.autoZero = false) {ending : Option Ending}
    {last : Run} (hrun : r.advance settings program fuel = (ending, last))
    (hok : ∀ e, ending ≠ some (.failed e)) :
    ∃ closing : List Nat,
      last.output.flushes.toList =
        r.output.flushes.toList ++
          ((r.course settings program fuel).filter (reads settings program)).map
            (fun u => u.output.written.size) ++ closing ∧
      (ending = none → closing = []) ∧
      ∀ termination, ending = some (.ended termination) → ∃ n, closing = [n] ∧
        (last.output.lineBuffered = false → n = last.output.written.size) := by
  have hflushes := flushes_advance settings program fuel r
  rw [hrun] at hflushes
  rcases ending with _ | termination | e
  · refine ⟨[], ?_, fun _ => rfl, fun _ h => nomatch h⟩
    rw [hflushes, filter_flushing_of_going hauto hrun, List.append_nil]
  · obtain ⟨j, u, hu, hturn, hcourse⟩ := advance_eq_some hrun
    have hnone : u.instruction? settings program = none := no_instruction_of_ended (by rw [hturn])
    have hlast : last.output = u.output.flush.2 := by
      have hout := output_turn settings program u
      rw [hturn, requests_eq, hnone] at hout
      exact hout.trans (congrArg Prod.snd (Output.serveAll_singleton .flush u.output))
    refine ⟨[u.output.written.size], ?_, (fun h => nomatch h), fun _ _ => ⟨_, rfl, ?_⟩⟩
    · have hu' : u.flushing settings program = true := by rw [flushing_of_reading hauto, hnone]; rfl
      have hu'' : u.reads settings program = false := by rw [reads, hnone]; rfl
      rw [hflushes, hcourse, List.filter_append, List.filter_append,
        filter_flushing_of_going hauto hu]
      simp [hu', hu'']
    · intro hline
      have hhanded := Output.handed_flush u.output
      have hline' : u.output.lineBuffered = false := by
        rw [hlast] at hline
        exact (congrArg Output.lineBuffered (Output.unwritten_flush u.output)).symm.trans hline
      rw [← hlast, Output.handed, Output.handed, hline, hline'] at hhanded
      simpa using (congrArg List.length hhanded).symm
  · exact absurd rfl (hok e)

end Flushes

end Run

namespace Machine

/-- **Prompts are visible before a read.**  Let a run that really reads make so many turns, over any
output.  Its history is what it does on the console.  If the output has not failed:

* When an attempt to read is made, the act before it is a flush, and the device has every byte that
  was written so far.  Without a line buffer the last flush that it has noted came after all of them.
* The flushes are, in order, one for each instruction that reads, made in a state `u` of the run and
  noted with the bytes written by then, whatever the input gives.  If the run has ended, one more
  follows, with all bytes of the run. -/
theorem run_prompts (settings : RuntimeSettings) (hauto : settings.autoZero = false)
    (observed : Bool) (program : Array UInt8) (m : Machine) (fuel : Nat) (ending : Option Ending)
    (last : Run)
    (hrun : (Run.start settings observed m).advance settings program fuel = (ending, last)) :
    m.console.actAll ((Run.start settings observed m).history settings program fuel) =
      (Ending.result ending, last.machine.console) ∧
    ((∀ e, ending ≠ some (.failed e)) →
      (∀ earlier a later,
        (Run.start settings observed m).history settings program fuel = earlier ++ a :: later →
        a.isRead = true →
        (∃ before, earlier = before ++ [.ask .flush]) ∧
        ∃ c, m.console.actAll earlier = (.ok (), c) ∧
          c.output.written.toList =
            m.console.output.handed ++ earlier.flatMap Console.Act.bytes ∧
          (c.output.lineBuffered = false →
            c.output.flushes.back? = some c.output.written.size)) ∧
      ∃ closing : List Nat,
        last.output.flushes.toList =
          m.console.output.flushes.toList ++
            (((Run.start settings observed m).course settings program fuel).filter
              (Run.reads settings program)).map (fun u => u.output.written.size) ++ closing ∧
        (ending = none → closing = []) ∧
        ∀ termination, ending = some (.ended termination) → ∃ n, closing = [n] ∧
          (last.output.lineBuffered = false → n = last.output.written.size)) := by
  have hhistory := Run.actAll_history settings program fuel (Run.start settings observed m)
  rw [hrun] at hhistory
  refine ⟨hhistory, fun hok => ⟨?_, Run.flushes_of_not_failed hauto hrun hok⟩⟩
  intro earlier a later hsplit hread
  obtain ⟨before, rfl⟩ := Run.flush_before_read hsplit hread
  rw [hsplit, Ending.result_of_not_failed hok] at hhistory
  obtain ⟨c, hearlier, -⟩ := Console.actAll_of_append hhistory
  exact ⟨⟨before, rfl⟩, c, hearlier, Console.written_of_flushed hearlier⟩

/-- A program that writes `A`, reads a byte and writes its number: one flush before the read, and one
at the end. -/
theorem run_prompts_question :
    ∃ last,
      (Run.start { maxCycles := some 9 } false
          (create {} ⟨{ rest := [66] }, {}⟩ (RandomSource.ofSeed 0)
            { seconds := fun _ => 0 })).advance { maxCycles := some 9 } #[65, 67, 68, 78] 9 =
        (some (.ended .completed), last) ∧
      last.output.flushes.toList = [1, 4] := by
  have hrun : (Run.start { maxCycles := some 9 } false
      (create {} ⟨{ rest := [66] }, {}⟩ (RandomSource.ofSeed 0)
        { seconds := fun _ => 0 })).advance { maxCycles := some 9 } #[65, 67, 68, 78] 9 =
      (some (.ended .completed), _) := Prod.ext (by decide +kernel) rfl
  obtain ⟨-, hok⟩ := run_prompts { maxCycles := some 9 } rfl false #[65, 67, 68, 78] _ 9 _ _ hrun
  obtain ⟨-, closing, hflushes, -, hclosing⟩ := hok (fun e h => nomatch h)
  obtain ⟨n, rfl, hn⟩ := hclosing .completed rfl
  refine ⟨_, hrun, hflushes.trans ?_⟩
  rw [hn rfl]
  decide +kernel

end Machine

end ErrorFree
