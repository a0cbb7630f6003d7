import ErrorFree.Proofs.Command.Simulation

/-!
# Files run one after the other

**Runs.**  `Machine.succession` runs programs one after the other, each on its own: with an empty
stack, an empty heap and fresh random values.  Only the input and the clock are passed on.

**Worlds.**  `World.After runs w w'` says that `w'` is `w` after some runs: the input and the clock
stand where the last run has left them, the output has got what the runs print, and nothing else
has changed but what the user was told.  Worlds after runs compose (`After.trans`).

**Result.**  `runFiles_succession`: to run files is to run the programs that can be read one after
the other, and to count the paths that cannot.
-/

namespace ErrorFree

namespace Machine

/-- The runs of programs, each on its own, on what the one before has left of the input. -/
def succession (settings : RuntimeSettings) (seed : Nat) :
    List (Array UInt8) → Input → Clock → List (Option Ending × Run)
  | [], _, _ => []
  | program :: rest, input, clock =>
      let run := alone settings seed program input clock
      run :: succession settings seed rest run.2.machine.console.input run.2.machine.clock

/-- The bytes that runs print, in order. -/
def printed (runs : List (Option Ending × Run)) : List UInt8 :=
  runs.flatMap fun run => run.2.output.written.toList

/-- What the last of some runs has left of the input. -/
def leftInput (input : Input) (runs : List (Option Ending × Run)) : Input :=
  runs.foldl (fun _ run => run.2.machine.console.input) input

/-- The clock after the last of some runs. -/
def leftClock (clock : Clock) (runs : List (Option Ending × Run)) : Clock :=
  runs.foldl (fun _ run => run.2.machine.clock) clock

theorem succession_ended {settings : RuntimeSettings} {limit : Nat}
    (hlimit : settings.maxCycles = some limit) (seed : Nat) (programs : List (Array UInt8))
    (input : Input) (clock : Clock) :
    ∀ run ∈ succession settings seed programs input clock,
      ∃ termination, run.1 = some (.ended termination) := by
  induction programs generalizing input clock with
  | nil => exact fun _ hrun => absurd hrun List.not_mem_nil
  | cons program rest ih =>
      intro run hrun
      rcases List.mem_cons.mp hrun with rfl | hrest
      · obtain ⟨termination, last, hended, -⟩ := alone_ended program seed input clock hlimit
        exact ⟨termination, congrArg Prod.fst hended⟩
      · exact ih _ _ run hrest

end Machine

namespace Command

open Machine

/-- The second world is the first one after some runs. -/
structure World.After (runs : List (Option Ending × Run)) (w w' : World) : Prop where
  input : w'.input = leftInput w.input runs
  clock : w'.clock = leftClock w.clock runs
  handed : w'.output.handed = w.output.handed ++ printed runs
  /-- Nothing is held back, unless it was before. -/
  settled : w.output.written.toList = w.output.handed →
    w'.output.written.toList = w'.output.handed
  neverFails : w'.output.NeverFails
  others : { w' with input := w.input, clock := w.clock, output := w.output, told := w.told } = w

namespace World.After

variable {runs runs' : List (Option Ending × Run)} {w w' w'' : World}

theorem program?_eq (h : w.After runs w') : w'.program? = w.program? := by
  have htree : w'.tree = w.tree := (congrArg World.tree h.others :)
  have hcurrent : w'.current = w.current := (congrArg World.current h.others :)
  funext path
  rw [World.program?, World.program?, htree, hcurrent]

theorem tell (text : String) (hout : w.output.NeverFails) : w.After [] (w.tell text) :=
  ⟨rfl, rfl, (List.append_nil _).symm, id, hout, rfl⟩

theorem trans (h : w.After runs w') (h' : w'.After runs' w'') : w.After (runs ++ runs') w'' where
  input := by rw [h'.input, h.input, leftInput, leftInput, leftInput, List.foldl_append]
  clock := by rw [h'.clock, h.clock, leftClock, leftClock, leftClock, List.foldl_append]
  handed := by rw [h'.handed, h.handed, List.append_assoc, printed, printed, printed,
    List.flatMap_append]
  settled := fun hsettled => h'.settled (h.settled hsettled)
  neverFails := h'.neverFails
  others := by
    have hothers := congrArg
      (fun v : World =>
        { v with input := w.input, clock := w.clock, output := w.output, told := w.told })
      h'.others
    exact hothers.trans h.others

end World.After

section Files

variable {session : Session} {seed limit : Nat} {path : String} {w w' w'' : World}

/-- A file that can be read runs on its own. -/
theorem runFile_after {program : Array UInt8} (hseed : session.runtime.seed = some seed)
    (hlimit : session.runtime.maxCycles = some limit) (hout : w.output.NeverFails)
    (hprogram : w.program? path = some program) :
    ∃ w', runFile World.host session path w = some (.ok (), w') ∧
      w.After [alone session.runtime seed program w.input w.clock] w' := by
  obtain ⟨termination, last, last', p, halone, hrun, hlast, hkeep, hhanded, hsettled⟩ :=
    run_of_alone w.patience session.showsProgress program seed w.input w.clock hlimit hout
  rw [runFile_of_program session hprogram, announce_execute hseed hrun]
  refine ⟨_, rfl, ?_⟩
  -- `last'` is `last` but for its output, which is `p`.
  have hinput : last'.machine.console.input = last.machine.console.input :=
    (congrArg (fun r : Run => r.machine.console.input) hlast :)
  have hclock : last'.machine.clock = last.machine.clock :=
    (congrArg (fun r : Run => r.machine.clock) hlast :)
  have houtput : last'.machine.console.output = p := (congrArg Run.output hlast :)
  rw [halone]
  refine ⟨hinput, hclock, ?_, fun _ => ?_, ?_, rfl⟩
  · show last'.machine.console.output.handed = _
    rw [houtput, hhanded, printed, List.flatMap_singleton]
  · show last'.machine.console.output.written.toList = last'.machine.console.output.handed
    rw [houtput, hsettled]
  · show last'.machine.console.output.NeverFails
    rw [houtput]
    exact hkeep

section Passing

variable {run : RuntimeSettings → RandomSource → Option String → Array UInt8 →
  Simulation (Except IoError Stats)} {rest : List String} {failed : Nat}

theorem runEach_of_ok (hfile : runFile { World.host with run } session path w = some (.ok (), w'))
    (hrest : runEach { World.host with run } session rest w' = some (failed, w'')) :
    runEach { World.host with run } session (path :: rest) w = some (failed, w'') := by
  refine (bind_of_eq hfile _).trans ?_
  refine (bind_of_eq (a := 0) rfl _).trans ?_
  refine (bind_of_eq hrest _).trans ?_
  rw [Nat.zero_add]
  rfl

theorem runEach_of_error {failure : Failure}
    (hfile : runFile { World.host with run } session path w = some (.error failure, w'))
    (hrest : runEach { World.host with run } session rest
      (w'.tell (statusLine failure.line ++ "\n")) = some (failed, w'')) :
    runEach { World.host with run } session (path :: rest) w = some (failed + 1, w'') := by
  refine (bind_of_eq hfile _).trans ?_
  refine (bind_of_eq (say_eq w' _) _).trans ?_
  refine (bind_of_eq (a := 1) rfl _).trans ?_
  refine (bind_of_eq hrest _).trans ?_
  rw [Nat.add_comm]
  rfl

theorem runFiles_of_each {paths : List String}
    (h : runEach { World.host with run } session paths w = some (failed, w')) :
    runFiles { World.host with run } session paths w =
      some (if failed = 0 then .ok () else .error
        { message := toString failed ++ " of " ++ toString paths.length ++ " files failed" },
        w') := by
  refine (bind_of_eq h _).trans ?_
  split <;> rfl

end Passing

/-- The number of paths at which no program can be read. -/
def World.failures (paths : List String) (w : World) : Nat :=
  paths.countP fun path => (w.program? path).isNone

/-- The runs of the programs that can be read at some paths. -/
def World.runs (settings : RuntimeSettings) (seed : Nat) (paths : List String) (w : World) :
    List (Option Ending × Run) :=
  succession settings seed (paths.filterMap w.program?) w.input w.clock

theorem runEach_after (hseed : session.runtime.seed = some seed)
    (hlimit : session.runtime.maxCycles = some limit) (hout : w.output.NeverFails)
    (paths : List String) :
    ∃ w', runEach World.host session paths w = some (w.failures paths, w') ∧
      w.After (w.runs session.runtime seed paths) w' := by
  unfold World.failures World.runs
  -- `After` carries the tree along, so that the remaining paths read the same programs.
  induction paths generalizing w with
  | nil => exact ⟨w, rfl, rfl, rfl, (List.append_nil _).symm, id, hout, rfl⟩
  | cons path rest ih =>
      cases hprogram : w.program? path with
      | some program =>
          obtain ⟨w₁, hfile, hafter⟩ := runFile_after hseed hlimit hout hprogram
          obtain ⟨w₂, hrest, hafter'⟩ := ih hafter.neverFails
          rw [hafter.program?_eq, hafter.input, hafter.clock] at hafter'
          refine ⟨w₂, ?_, ?_⟩
          · refine (runEach_of_ok hfile hrest).trans ?_
            rw [hafter.program?_eq, List.countP_cons_of_neg (by simp [hprogram])]
          · rw [List.filterMap_cons_some hprogram]
            exact hafter.trans hafter'
      | none =>
          obtain ⟨failure, hfile⟩ := runFile_of_unreadable session hprogram
          have hafter := (World.After.tell
            (infoText session ("Running file \"" ++ displayName path ++ "\".")) hout).trans
            (World.After.tell (statusLine failure.line ++ "\n") hout)
          obtain ⟨w₂, hrest, hafter'⟩ := ih hafter.neverFails
          rw [hafter.program?_eq, hafter.input, hafter.clock] at hafter'
          refine ⟨w₂, ?_, ?_⟩
          · refine (runEach_of_error hfile hrest).trans ?_
            rw [hafter.program?_eq, List.countP_cons_of_pos (by simp [hprogram])]
          · rw [List.filterMap_cons_none hprogram]
            exact hafter.trans hafter'

theorem World.failures_eq_zero_iff {paths : List String} :
    w.failures paths = 0 ↔ ∀ path ∈ paths, w.program? path ≠ none := by
  unfold World.failures
  rw [List.countP_eq_zero]
  simp only [Option.isNone_iff_eq_none, ne_eq]

/-- **Files one after the other.**  Files are run as their programs run on their own, in order; paths
at which no program can be read are counted, and change nothing for the others. -/
theorem runFiles_succession (session : Session) (paths : List String) (w : World)
    (hseed : session.runtime.seed = some seed) (hlimit : session.runtime.maxCycles = some limit)
    (hout : w.output.NeverFails) :
    ∃ result w',
      runFiles World.host session paths w = some (result, w') ∧
      (∀ run ∈ w.runs session.runtime seed paths,
        ∃ termination, run.1 = some (.ended termination)) ∧
      w.After (w.runs session.runtime seed paths) w' ∧
      (w.output.written.toList = w.output.handed →
        w'.output.written.toList =
          w.output.written.toList ++ printed (w.runs session.runtime seed paths)) ∧
      (result = .ok () ↔ ∀ path ∈ paths, w.program? path ≠ none) ∧
      (∀ failure, result = .error failure →
        failure =
          { message := toString (w.failures paths) ++ " of " ++ toString paths.length ++
              " files failed" }) ∧
      ∀ flags, w.session flags = .ok session → ∃ text,
        perform World.host w.environment w.directory (.run paths flags) w =
          some (if w.failures paths = 0 then 0 else 1, w'.tell text) := by
  obtain ⟨w', heach, hafter⟩ := runEach_after hseed hlimit hout paths
  have hended := succession_ended hlimit seed (paths.filterMap w.program?) w.input w.clock
  have hwritten : w.output.written.toList = w.output.handed →
      w'.output.written.toList =
        w.output.written.toList ++ printed (w.runs session.runtime seed paths) := by
    intro hsettled
    rw [hafter.settled hsettled, hafter.handed, hsettled]
  have hfiles := runFiles_of_each heach
  have hwork : ∀ flags, w.session flags = .ok session →
      withSession World.host w.environment w.directory flags
        (fun session => runFiles World.host session paths) w =
      runFiles World.host session paths w := fun flags hflags => withSession_of_ok hflags _
  by_cases hnone : w.failures paths = 0
  · rw [if_pos hnone] at hfiles
    refine ⟨.ok (), w', hfiles, hended, hafter, hwritten, ?_, ?_, ?_⟩
    · exact iff_of_true rfl (World.failures_eq_zero_iff.mp hnone)
    · exact fun _ h => nomatch h
    · intro flags hflags
      rw [if_pos hnone]
      refine ⟨"", (concluded_of_ok ((hwork flags hflags).trans hfiles)).trans ?_⟩
      rw [World.tell_empty]
  · rw [if_neg hnone] at hfiles
    refine ⟨_, w', hfiles, hended, hafter, hwritten, ?_, ?_, ?_⟩
    · exact iff_of_false (fun h => nomatch h) fun h => hnone (World.failures_eq_zero_iff.mpr h)
    · exact fun _ h => (Except.error.inj h).symm
    · intro flags hflags
      rw [if_neg hnone]
      exact ⟨_, concluded_of_error ((hwork flags hflags).trans hfiles)⟩

/-- A world with a program that copies one byte, and a directory. -/
def World.copying : World where
  tree := { nodes := [(["copy"], .file [68, 67]), (["sub"], .directory)] }
  input := { rest := [120, 121, 122] }
  clock := { seconds := fun _ => 0 }
  patience := 0

/-- The program runs twice, on one byte after the other; the directory and the path that leads
nowhere are counted. -/
theorem runFiles_succession_copying :
    ∃ w', runFiles World.host { runtime := { seed := some 7, maxCycles := some 9 } }
        ["copy", "nowhere", "sub", "copy"] World.copying =
          some (.error { message := "2 of 4 files failed" }, w') ∧
      w'.output.written.toList = [120, 121] := by
  obtain ⟨result, w', hrun, -, -, hwritten, hok, herror, -⟩ :=
    runFiles_succession { runtime := { seed := some 7, maxCycles := some 9 } }
      ["copy", "nowhere", "sub", "copy"] World.copying rfl rfl neverFails_fresh
  have hcopied : printed (World.copying.runs { seed := some 7, maxCycles := some 9 } 7
      ["copy", "nowhere", "sub", "copy"]) = [120, 121] := by
    decide +kernel
  cases result with
  | ok _ => exact absurd (hok.mp rfl "nowhere" (by simp)) (by decide +kernel)
  | error failure =>
      refine ⟨w', ?_, ?_⟩
      · rw [hrun, herror failure rfl]
        rfl
      · rw [hwritten rfl, hcopied]
        rfl

end Files

end Command

end ErrorFree
