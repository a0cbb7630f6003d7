import ErrorFree.Proofs.Command.Succession

/-!
# Status options

Whether a session is quiet, and how it tells of its runs, changes nothing but what the user is told.

**Progress.**  `World.drawing` draws what a run shows of its progress, in any way, where the user is
told things.  A quiet session has no progress to show.

**Two pieces of work.**  `Alike` says that two pieces of work give the same result and leave the same
world, but for what was told, and for which results the first of them has told nothing.  It holds of
the single actions in any two sessions with the same runtime settings (`alike_info`, `alike_run`, ...)
and is carried through the commands step by step (`Alike.bind`).

**Result.**  `perform_status`: two such sessions do the same, and a quiet one that succeeds is silent.
-/

namespace ErrorFree

namespace Command

section Drawing

/-- What an observer of a run reports. -/
def World.reports (settings : RuntimeSettings) (source : RandomSource) (program : Array UInt8)
    (w : World) : Array Snapshot :=
  (Machine.run settings w.patience true program
    (Machine.create settings ⟨w.input, w.output⟩ source w.clock)).2.observer.elim #[]
      Observer.reports

/-- What is drawn of a run under its name, if it has one. -/
def World.drawn (draw : String → Array Snapshot → String) (settings : RuntimeSettings)
    (source : RandomSource) (shown : Option String) (program : Array UInt8) (w : World) : String :=
  shown.elim "" fun name => draw name (w.reports settings source program)

/-- The effects of commands, in a world where the progress of a run is drawn. -/
def World.drawing (draw : String → Array Snapshot → String) : Host Simulation :=
  { World.host with
    run := fun settings source shown program w =>
      (w.run settings source shown program).map fun (result, after) =>
        (result, after.tell (w.drawn draw settings source shown program)) }

/-- If nothing is drawn these are the plain effects. -/
theorem World.drawing_nothing : World.drawing (fun _ _ => "") = World.host := by
  have hrun : (World.drawing fun _ _ => "").run = World.host.run := by
    funext settings source shown program w
    have hempty : w.drawn (fun _ _ => "") settings source shown program = "" := by
      cases shown <;> rfl
    simp only [World.drawing, World.host, hempty, World.tell_empty, Option.map_id']
  exact congrArg (fun run => { World.host with run }) hrun

end Drawing

section Alike

variable {α β : Type} {x y : Simulation α} {f g : α → Simulation β} {quiet : Prop}

/-- Two pieces of work that give the same result and leave the same world, but for what was told.
For results that are `quiet` the first one has told nothing. -/
def Alike (quiet : α → Prop) (x y : Simulation α) : Prop :=
  ∀ w told, ∃ a w' told',
    x w = some (a, w') ∧ y { w with told } = some (a, { w' with told := told' }) ∧
      (quiet a → w'.told = w.told)

theorem alike_pure (a : α) (quiet : α → Prop) : Alike quiet (pure a) (pure a) := by
  intro w told
  exact ⟨a, w, told, rfl, rfl, fun _ => rfl⟩

theorem Alike.bind (hx : Alike (fun _ => quiet) x y)
    (hf : ∀ a, Alike (fun _ => quiet) (f a) (g a)) :
    Alike (fun _ => quiet) (x >>= f) (y >>= g) := by
  intro w told
  obtain ⟨a, w₁, told₁, hfirst, hfirst', hquiet⟩ := hx w told
  obtain ⟨b, w₂, told₂, hrest, hrest', hquiet'⟩ := hf a w₁ told₁
  refine ⟨b, w₂, told₂, ?_, ?_, ?_⟩
  · exact (bind_of_eq hfirst f).trans hrest
  · exact (bind_of_eq hfirst' g).trans hrest'
  · intro hq
    exact (hquiet' hq).trans (hquiet hq)

theorem Alike.mono {silent quiet : α → Prop} (h : Alike silent x y)
    (hsilent : ∀ a, quiet a → silent a) : Alike quiet x y := by
  intro w told
  obtain ⟨a, w', told', hx, hy, hquiet⟩ := h w told
  exact ⟨a, w', told', hx, hy, fun hq => hquiet (hsilent a hq)⟩

/-- Work that only tells something. -/
theorem alike_of_tells {text text' : String} {x y : Simulation Unit}
    (hx : ∀ w, x w = some ((), w.tell text)) (hy : ∀ w, y w = some ((), w.tell text'))
    (hquiet : quiet → text = "") : Alike (fun _ => quiet) x y := by
  intro w told
  refine ⟨(), w.tell text, told ++ text', hx w, hy _, ?_⟩
  intro hq
  rw [hquiet hq, World.tell_empty]

end Alike

section Actions

variable (draw : String → Array Snapshot → String) {session session' : Session}

theorem infoText_of_quiet (h : session.quiet = true) (message : String) :
    infoText session message = "" := by
  simp [infoText, Session.verbose, h]

theorem alike_info (message : String) :
    Alike (fun _ => session.quiet = true) ((World.drawing draw).info session message)
      ((World.drawing draw).info session' message) := by
  refine alike_of_tells (fun w => info_eq session w message) (fun w => info_eq session' w message) ?_
  intro hquiet
  exact infoText_of_quiet hquiet message

theorem alike_summary (stats : Stats) :
    Alike (fun _ => session.quiet = true) ((World.drawing draw).summary session stats)
      ((World.drawing draw).summary session' stats) := by
  refine alike_of_tells (fun w => summary_eq session w stats) (fun w => summary_eq session' w stats)
    ?_
  intro hquiet
  simp [Session.showsSummary, hquiet]

theorem alike_source (seed : Option Nat) (quiet : RandomSource → Prop) :
    Alike quiet ((World.drawing draw).source seed) ((World.drawing draw).source seed) := by
  intro w told
  cases seed with
  | some seed => exact ⟨_, w, told, rfl, rfl, fun _ => rfl⟩
  | none => exact ⟨_, w, told, rfl, rfl, fun _ => rfl⟩

theorem alike_files (paths : List String) (quiet : (String → Entry) → Prop) :
    Alike quiet ((World.drawing draw).files paths) ((World.drawing draw).files paths) := by
  intro w told
  exact ⟨_, w, told, rfl, rfl, fun _ => rfl⟩

theorem alike_save (path : String) (content : List UInt8) (quiet : Except IoError Unit → Prop) :
    Alike quiet ((World.drawing draw).save path content)
      ((World.drawing draw).save path content) := by
  intro w told
  cases hsave : w.tree.save w.current path content with
  | ok tree =>
      refine ⟨.ok (), { w with tree }, told, ?_, ?_, fun _ => rfl⟩
      · simp [World.drawing, World.host, World.save, hsave]
      · simp [World.drawing, World.host, World.save, hsave]
  | error e =>
      refine ⟨.error e, w, told, ?_, ?_, fun _ => rfl⟩
      · simp [World.drawing, World.host, World.save, hsave]
      · simp [World.drawing, World.host, World.save, hsave]

end Actions

section Running

variable (draw : String → Array Snapshot → String) {settings : RuntimeSettings}
  {source : RandomSource} {shown : Option String} {program : Array UInt8} {limit : Nat} {w : World}

/-- What a command learns of a run. -/
def World.outcome (program : Array UInt8) (r : Run) (w : World) : Ending → Except IoError Stats
  | .ended termination => .ok ⟨program.size, r.cycles, w.elapsed, termination⟩
  | .failed e => .error e

theorem drawing_run_of_ending {ending : Ending} {r : Run}
    (h : Machine.run settings w.patience shown.isSome program
        (Machine.create settings ⟨w.input, w.output⟩ source w.clock) = (some ending, r)) :
    (World.drawing draw).run settings source shown program w =
      some (w.outcome program r ending,
        (w.ran r).tell (w.drawn draw settings source shown program)) := by
  have hrun : w.run settings source shown program =
      some (w.outcome program r ending, w.ran r) := by
    simp only [World.run, h]
    cases ending <;> rfl
  simp only [World.drawing, hrun, Option.map_some]

/-- A run ends as it does when nobody watches. -/
theorem run_watched (hlimit : settings.maxCycles = some limit) (patience : Nat)
    (program : Array UInt8) (m : Machine) :
    ∃ ending, ∃ r : Run, ∀ observed, ∃ observer,
      Machine.run settings patience observed program m = (some ending, { r with observer }) := by
  have hfuel : Machine.fuel settings patience = limit + 1 := by simp [Machine.fuel, hlimit]
  obtain ⟨ending, r, hrun, -⟩ : ∃ ending r,
      (Run.start settings false m).advance settings program (Machine.fuel settings patience) =
        (some ending, r) ∧ r.cycles ≤ limit :=
    Run.advance_ends program hlimit (Nat.zero_le limit) (by simp [Run.start, hfuel])
  refine ⟨ending, r, fun observed => ?_⟩
  have hsame := (Machine.run_unobserved settings patience observed program (m := m)).symm.trans hrun
  rcases hwatched : Machine.run settings patience observed program m with ⟨ending', r'⟩
  rw [hwatched] at hsame
  obtain ⟨rfl, rfl⟩ := Prod.mk.inj hsame
  exact ⟨r'.observer, rfl⟩

/-- A run does the same whether its progress is shown or not. -/
theorem alike_run (hlimit : settings.maxCycles = some limit) (source : RandomSource)
    (program : Array UInt8) (shown shown' : Option String) :
    Alike (fun _ => shown = none) ((World.drawing draw).run settings source shown program)
      ((World.drawing draw).run settings source shown' program) := by
  intro w told
  obtain ⟨ending, r, hrun⟩ := run_watched hlimit w.patience program
    (Machine.create settings ⟨w.input, w.output⟩ source w.clock)
  obtain ⟨observer, hfirst⟩ := hrun shown.isSome
  obtain ⟨observer', hsecond⟩ := hrun shown'.isSome
  have hdrawing := drawing_run_of_ending draw hfirst
  have hdrawing' := drawing_run_of_ending draw (w := { w with told }) hsecond
  refine ⟨w.outcome program r ending, (w.ran r).tell (w.drawn draw settings source shown program),
    told ++ w.drawn draw settings source shown' program, hdrawing, hdrawing', ?_⟩
  rintro rfl
  exact String.append_empty

end Running

section Commands

variable (draw : String → Array Snapshot → String) {session session' : Session} {limit : Nat}

theorem alike_announce {run run' : Simulation (Except Failure Unit)} (name : String)
    (h : Alike (fun _ => session.quiet = true) run run') :
    Alike (fun _ => session.quiet = true) (announce (World.drawing draw) session name run)
      (announce (World.drawing draw) session' name run') := by
  refine (alike_info draw _).bind fun _ => h.bind fun result => ?_
  cases result with
  | error failure => exact alike_pure _ _
  | ok _ => exact (alike_info draw _).bind fun _ => alike_pure _ _

theorem alike_saveProgram (save : Option String) (program : Array UInt8) :
    Alike (fun _ => session.quiet = true) (saveProgram (World.drawing draw) session save program)
      (saveProgram (World.drawing draw) session' save program) := by
  cases save with
  | none => exact alike_pure _ _
  | some path =>
      refine (alike_save draw path _ _).bind fun result => ?_
      cases result with
      | error e => exact alike_pure _ _
      | ok _ => exact (alike_info draw _).bind fun _ => alike_pure _ _

theorem alike_concluded {work work' : Simulation (Except Failure Unit)}
    (h : Alike (fun result => session.quiet = true ∧ result = .ok ()) work work') :
    Alike (fun code => session.quiet = true ∧ code = 0) (concluded (World.drawing draw) work)
      (concluded (World.drawing draw) work') := by
  intro w told
  obtain ⟨result, w', told', hwork, hwork', hsilent⟩ := h w told
  cases result with
  | ok _ =>
      refine ⟨0, w', told', concluded_of_ok hwork, concluded_of_ok hwork', ?_⟩
      rintro ⟨hquiet, -⟩
      exact hsilent ⟨hquiet, rfl⟩
  | error failure =>
      refine ⟨1, w'.tell (failure.report ++ "\n"), told' ++ (failure.report ++ "\n"),
        concluded_of_error hwork, concluded_of_error hwork', ?_⟩
      rintro ⟨-, hzero⟩
      cases hzero

section Programs

variable (hruntime : session'.runtime = session.runtime)
  (hlimit : session.runtime.maxCycles = some limit)

include hruntime hlimit

theorem alike_execute (name : String) (program : Array UInt8) :
    Alike (fun _ => session.quiet = true) (execute (World.drawing draw) session name program)
      (execute (World.drawing draw) session' name program) := by
  rw [execute, execute, hruntime]
  refine (alike_source draw _ _).bind fun source => ?_
  have hrun := alike_run draw hlimit source program
    (if session.showsProgress then some name else none)
    (if session'.showsProgress then some name else none)
  refine (hrun.mono ?_).bind fun result => ?_
  · intro _ hquiet
    simp [Session.showsProgress, hquiet]
  · cases result with
    | error e => exact alike_pure _ _
    | ok stats =>
        refine (alike_summary draw stats).bind fun _ => ?_
        by_cases hend : stats.termination = .cycleLimit
        · simp only [hend, if_true]
          exact (alike_info draw _).bind fun _ => alike_pure _ _
        · simp only [hend, if_false]
          exact alike_pure _ _

theorem alike_runFile (path : String) :
    Alike (fun _ => session.quiet = true) (runFile (World.drawing draw) session path)
      (runFile (World.drawing draw) session' path) := by
  refine alike_announce draw _ ((alike_files draw [path] _).bind fun look => ?_)
  cases look path with
  | file content => exact alike_execute draw hruntime hlimit _ _
  | locked reason => exact alike_pure _ _
  | directory => exact alike_pure _ _
  | absent reason => exact alike_pure _ _

/-- The first session tells nothing if it is quiet and no file failed. -/
theorem alike_runEach (paths : List String) :
    Alike (fun failed => session.quiet = true ∧ failed = 0)
      (runEach (World.drawing draw) session paths)
      (runEach (World.drawing draw) session' paths) := by
  induction paths with
  | nil => exact alike_pure 0 _
  | cons path rest ih =>
      intro w told
      obtain ⟨result, w₁, told₁, hfile, hfile', hsilent⟩ :=
        alike_runFile draw hruntime hlimit path w told
      cases result with
      | ok _ =>
          obtain ⟨failed, w₂, told₂, hrest, hrest', hsilent'⟩ := ih w₁ told₁
          refine ⟨failed, w₂, told₂, runEach_of_ok hfile hrest, runEach_of_ok hfile' hrest', ?_⟩
          intro hquiet
          exact (hsilent' hquiet).trans (hsilent hquiet.1)
      | error failure =>
          -- The failure is told by every session; it is counted, so that the result is not quiet.
          obtain ⟨failed, w₂, told₂, hrest, hrest', -⟩ :=
            ih (w₁.tell (statusLine failure.line ++ "\n"))
              (told₁ ++ (statusLine failure.line ++ "\n"))
          refine ⟨failed + 1, w₂, told₂, runEach_of_error hfile hrest,
            runEach_of_error hfile' hrest', ?_⟩
          rintro ⟨-, hnone⟩
          exact absurd hnone (Nat.succ_ne_zero failed)

theorem alike_runFiles (paths : List String) :
    Alike (fun result => session.quiet = true ∧ result = .ok ())
      (runFiles (World.drawing draw) session paths)
      (runFiles (World.drawing draw) session' paths) := by
  intro w told
  obtain ⟨failed, w', told', heach, heach', hsilent⟩ :=
    alike_runEach draw hruntime hlimit paths w told
  refine ⟨_, w', told', runFiles_of_each heach, runFiles_of_each heach', ?_⟩
  rintro ⟨hquiet, hok⟩
  refine hsilent ⟨hquiet, ?_⟩
  by_contra hsome
  rw [if_neg hsome] at hok
  cases hok

theorem alike_runRandom (length : Nat) (save : Option String) :
    Alike (fun _ => session.quiet = true) (runRandom (World.drawing draw) session length save)
      (runRandom (World.drawing draw) session' length save) := by
  have hrandom : (randomSession session').runtime = (randomSession session).runtime := by
    rw [randomSession, randomSession, hruntime]
  rw [runRandom, runRandom, hruntime]
  refine (alike_source draw _ _).bind fun source => ?_
  refine (alike_saveProgram draw save _).bind fun result => ?_
  cases result with
  | error failure => exact alike_pure _ _
  | ok _ => exact alike_announce draw randomName (alike_execute draw hrandom hlimit randomName _)

end Programs

end Commands

section Requests

/-- A command that runs programs. -/
inductive Job where
  | files (paths : List String)
  | random (length : Nat) (save : Option String)

namespace Job

/-- The request for a job with some flags. -/
def request (flags : Flags) : Job → Request
  | .files paths => .run paths flags
  | .random length save => .random length save flags

/-- What a job does in a session. -/
def work (host : Host Simulation) (session : Session) : Job → Simulation (Except Failure Unit)
  | .files paths => runFiles host session paths
  | .random length save => runRandom host session length save

end Job

variable (draw : String → Array Snapshot → String) {session session' : Session} {limit : Nat}

theorem alike_work (hruntime : session'.runtime = session.runtime)
    (hlimit : session.runtime.maxCycles = some limit) (job : Job) :
    Alike (fun result => session.quiet = true ∧ result = .ok ())
      (job.work (World.drawing draw) session) (job.work (World.drawing draw) session') := by
  cases job with
  | files paths => exact alike_runFiles draw hruntime hlimit paths
  | random length save =>
      refine (alike_runRandom draw hruntime hlimit length save).mono ?_
      rintro _ ⟨hquiet, -⟩
      exact hquiet

theorem concluded_congr {host : Host Simulation} {work work' : Simulation (Except Failure Unit)}
    {w : World} (h : work w = work' w) : concluded host work w = concluded host work' w := by
  show ((work w).bind fun p => _) = (work' w).bind fun p => _
  rw [h]

/-- A request whose session is known does its job in that session. -/
theorem perform_request {flags : Flags} {w : World} (hsession : w.session flags = .ok session)
    (job : Job) :
    perform (World.drawing draw) w.environment w.directory (job.request flags) w =
      concluded (World.drawing draw) (job.work (World.drawing draw) session) w := by
  cases job with
  | files paths => exact concluded_congr (withSession_of_ok hsession _)
  | random length save => exact concluded_congr (withSession_of_ok hsession _)

/-- **Status options only tell.**  Take two sessions with the same runtime settings, among them a
cycle limit, so that they differ at most in being quiet and in how they tell of progress and runs.
However progress is drawn: the same job comes to an end in both, with the same exit code, and leaves
the same world, its files, its streams and its clock, but for what the user was told.  If the first
session is quiet and the job succeeds, nothing was told at all.  So it is for all requests that give
these sessions. -/
theorem perform_status (draw : String → Array Snapshot → String) (job : Job) (w : World)
    (session session' : Session) (limit : Nat) (hruntime : session'.runtime = session.runtime)
    (hlimit : session.runtime.maxCycles = some limit) :
    ∃ code w' told',
      concluded (World.drawing draw) (job.work (World.drawing draw) session) w = some (code, w') ∧
      concluded (World.drawing draw) (job.work (World.drawing draw) session') w =
        some (code, { w' with told := told' }) ∧
      (session.quiet = true → code = 0 → w'.told = w.told) ∧
      (∀ flags, w.session flags = .ok session →
        perform (World.drawing draw) w.environment w.directory (job.request flags) w =
          some (code, w')) ∧
      ∀ flags, w.session flags = .ok session' →
        perform (World.drawing draw) w.environment w.directory (job.request flags) w =
          some (code, { w' with told := told' }) := by
  obtain ⟨code, w', told', hfirst, hsecond, hsilent⟩ :=
    alike_concluded draw (alike_work draw hruntime hlimit job) w w.told
  refine ⟨code, w', told', hfirst, hsecond, ?_, ?_, ?_⟩
  · intro hquiet hcode
    exact hsilent ⟨hquiet, hcode⟩
  · intro flags hsession
    exact (perform_request draw hsession job).trans hfirst
  · intro flags hsession
    exact (perform_request draw hsession job).trans hsecond

/-- A program that copies a byte, quietly and with a summary as text for machines: the same byte is
copied, and the quiet command tells nothing. -/
theorem perform_status_copying :
    ∃ w' told',
      perform World.host World.copying.environment World.copying.directory
        (.run ["copy"] { seed := some 7, maxCycles := some 9, quiet := true }) World.copying =
          some (0, w') ∧
      perform World.host World.copying.environment World.copying.directory
        (.run ["copy"] { seed := some 7, maxCycles := some 9, json := true }) World.copying =
          some (0, { w' with told := told' }) ∧
      w'.told = "" ∧ w'.output.written.toList = [120] := by
  obtain ⟨code, w', told', -, -, hsilent, hfirst, hsecond⟩ :=
    perform_status (fun _ _ => "") (.files ["copy"]) World.copying
      { runtime := { seed := some 7, maxCycles := some 9 }, quiet := true }
      { runtime := { seed := some 7, maxCycles := some 9 }, json := true } 9 rfl rfl
  have hquiet := hfirst { seed := some 7, maxCycles := some 9, quiet := true } rfl
  have hjson := hsecond { seed := some 7, maxCycles := some 9, json := true } rfl
  rw [World.drawing_nothing] at hquiet hjson
  have hcode : code = 0 := by
    have hrun := congrArg (Option.map Prod.fst) hquiet
    exact Option.some.inj (hrun.symm.trans (by decide +kernel))
  have hwritten : w'.output.written.toList = [120] := by
    have hrun := congrArg (Option.map fun result => result.2.output.written.toList) hquiet
    exact Option.some.inj (hrun.symm.trans (by decide +kernel))
  subst hcode
  exact ⟨w', told', hquiet, hjson, hsilent rfl rfl, hwritten⟩

end Requests

end Command

end ErrorFree
