import ErrorFree.Command.World
import ErrorFree.Proofs.Machine.Alone

/-!
# Commands in a world

Each action of a command, as what it does to the world: `World.tell` adds to what the user was told,
`World.ran` puts the streams and the clock where a run has left them.  Telling and running touch
different parts of the world, so that the parts can be read off one after the other.

* `info_eq`, `summary_eq`: what a session is told, `infoText` and `reportText`.
* `run_of_ended`, `execute_of_run`, `announce_of_ok`: a program that runs to its end.
* `runFile_of_program`, `runFile_of_unreadable`: the program in a file, or no program.
* `withSession_of_ok`, `concluded_of_ok`, `concluded_of_error`: what a request does around its work.
-/

namespace ErrorFree

namespace Command

section Steps

variable {α β : Type} {w w' : World}

/-- The rest of a command goes on in the world that its first action has left. -/
theorem bind_of_eq {x : Simulation α} {a : α} (h : x w = some (a, w')) (f : α → Simulation β) :
    (x >>= f) w = f a w' := by
  show ((x w).bind fun p => f p.1 p.2) = _
  rw [h]
  rfl

end Steps

namespace World

/-- The world after the user was told something. -/
def tell (text : String) (w : World) : World := { w with told := w.told ++ text }

theorem tell_empty (w : World) : w.tell "" = w := by
  simp [tell]

theorem tell_tell (first second : String) (w : World) :
    (w.tell first).tell second = w.tell (first ++ second) := by
  simp [tell, String.append_assoc]

/-- The world with the streams and the clock where a run has left them. -/
def ran (r : Run) (w : World) : World :=
  { w with
    input := r.machine.console.input
    output := r.machine.console.output
    clock := r.machine.clock }

theorem ran_tell (text : String) (r : Run) (w : World) :
    (w.tell text).ran r = (w.ran r).tell text := rfl

end World

section Telling

/-- What a status line adds to what is told. -/
def infoText (session : Session) (message : String) : String :=
  if session.verbose then statusLine message ++ "\n" else ""

/-- What is told about a finished run. -/
def reportText (session : Session) (name : String) (stats : Stats) : String :=
  (if session.showsSummary then
    if session.json then stats.json ++ "\n" else infoText session stats.display
  else "") ++
  if stats.termination = .cycleLimit then
    infoText session ("Stopped \"" ++ name ++ "\" at the cycle limit.")
  else ""

variable (session : Session) (w : World)

theorem say_eq (line : String) : World.host.say line w = some ((), w.tell (line ++ "\n")) := by
  simp [World.host, World.tell, String.append_assoc]

theorem info_eq (message : String) :
    World.host.info session message w = some ((), w.tell (infoText session message)) := by
  unfold Host.info infoText
  cases session.verbose with
  | true => exact say_eq w _
  | false =>
      rw [if_neg Bool.false_ne_true, if_neg Bool.false_ne_true, World.tell_empty]
      rfl

theorem summary_eq (stats : Stats) :
    World.host.summary session stats w =
      some ((), w.tell (if session.showsSummary then
        if session.json then stats.json ++ "\n" else infoText session stats.display else "")) := by
  unfold Host.summary
  cases session.showsSummary with
  | false => exact congrArg (fun v => some ((), v)) w.tell_empty.symm
  | true =>
      cases session.json with
      | true => exact say_eq w _
      | false => exact info_eq session w _

end Telling

section Running

variable {session : Session} {name : String} {program : Array UInt8} {seed : Nat} {stats : Stats}
  {w w' : World}

theorem run_of_ended {settings : RuntimeSettings} {source : RandomSource} {shown : Option String}
    {termination : Termination} {r : Run}
    (h : Machine.run settings w.patience shown.isSome program
        (Machine.create settings ⟨w.input, w.output⟩ source w.clock) =
      (some (.ended termination), r)) :
    w.run settings source shown program =
      some (.ok ⟨program.size, r.cycles, w.elapsed, termination⟩, w.ran r) := by
  simp only [World.run, h]
  rfl

theorem execute_of_run (hseed : session.runtime.seed = some seed)
    (hrun : w.run session.runtime (RandomSource.ofSeed (UInt64.ofNat seed))
      (if session.showsProgress then some name else none) program = some (.ok stats, w')) :
    execute World.host session name program w =
      some (.ok (), w'.tell (reportText session name stats)) := by
  have hsource : World.host.source session.runtime.seed w =
      some (RandomSource.ofSeed (UInt64.ofNat seed), w) := by
    rw [hseed]
    rfl
  refine (bind_of_eq hsource _).trans ?_
  refine (bind_of_eq (x := World.host.run _ _ _ _) hrun _).trans ?_
  refine (bind_of_eq (summary_eq session w' stats) _).trans ?_
  unfold reportText
  rw [← World.tell_tell]
  by_cases hlimit : stats.termination = .cycleLimit
  · simp only [hlimit, if_true]
    exact bind_of_eq (info_eq session _ _) _
  · simp only [hlimit, if_false, World.tell_empty]
    rfl

theorem announce_of_ok {run : Simulation (Except Failure Unit)}
    (h : run (w.tell (infoText session ("Running file \"" ++ name ++ "\"."))) =
      some (.ok (), w')) :
    announce World.host session name run w =
      some (.ok (), w'.tell (infoText session ("Finished running file \"" ++ name ++ "\"."))) := by
  refine (bind_of_eq (info_eq session w _) _).trans ?_
  refine (bind_of_eq h _).trans ?_
  exact bind_of_eq (info_eq session w' _) _

theorem announce_of_error {run : Simulation (Except Failure Unit)} {failure : Failure}
    (h : run (w.tell (infoText session ("Running file \"" ++ name ++ "\"."))) =
      some (.error failure, w')) :
    announce World.host session name run w = some (.error failure, w') := by
  refine (bind_of_eq (info_eq session w _) _).trans ?_
  exact bind_of_eq h _

/-- What a program does between the two status lines is decided by what it does after the first. -/
theorem announce_congr {run run' : Simulation (Except Failure Unit)}
    (h : run (w.tell (infoText session ("Running file \"" ++ name ++ "\"."))) =
      run' (w.tell (infoText session ("Running file \"" ++ name ++ "\".")))) :
    announce World.host session name run w = announce World.host session name run' w := by
  refine (bind_of_eq (info_eq session w _) _).trans
    (Eq.trans ?_ (bind_of_eq (info_eq session w _) _).symm)
  show ((run _).bind fun p => _) = (run' _).bind fun p => _
  rw [h]

end Running

section Files

/-- The program in the file at a path, if it can be read. -/
def World.program? (w : World) (path : String) : Option (Array UInt8) :=
  match (w.tree.look w.current path).read with
  | .ok content => some content.toArray
  | .error _ => none

theorem World.program?_eq_some_iff {w : World} {path : String} {program : Array UInt8} :
    w.program? path = some program ↔ w.tree.look w.current path = .file program.toList := by
  unfold World.program?
  cases w.tree.look w.current path with
  | file content =>
      constructor
      · intro h
        rw [← Option.some.inj h]
      · intro h
        simp [Entry.read, Entry.file.inj h]
  | locked reason => simp [Entry.read]
  | directory => simp [Entry.read]
  | absent reason => simp [Entry.read]

/-- What is told about the run of a file. -/
def fileText (session : Session) (name : String) (stats : Stats) : String :=
  infoText session ("Running file \"" ++ name ++ "\".") ++ (reportText session name stats ++
    infoText session ("Finished running file \"" ++ name ++ "\"."))

variable {session : Session} {name path : String} {program : Array UInt8} {seed : Nat}
  {termination : Termination} {r : Run} {w : World}

/-- A program runs under a name on the streams of the world. -/
theorem announce_execute (hseed : session.runtime.seed = some seed)
    (hrun : Machine.run session.runtime w.patience session.showsProgress program
        (Machine.create session.runtime ⟨w.input, w.output⟩
          (RandomSource.ofSeed (UInt64.ofNat seed)) w.clock) =
      (some (.ended termination), r)) :
    announce World.host session name (execute World.host session name program) w =
      some (.ok (), (w.ran r).tell
        (fileText session name ⟨program.size, r.cycles, w.elapsed, termination⟩)) := by
  have hshown : (if session.showsProgress then some name else none).isSome =
      session.showsProgress := by
    cases session.showsProgress <;> rfl
  have hexecute := execute_of_run hseed
    (run_of_ended (w := w.tell (infoText session ("Running file \"" ++ name ++ "\".")))
      (hshown.symm ▸ hrun))
  rw [announce_of_ok hexecute, World.ran_tell, World.tell_tell, World.tell_tell]
  rfl

/-- The failure to read a program file. -/
def unread (path : String) (reason : IoError) : Failure :=
  { message := "Error occurred while trying to read file \"" ++ displayName path ++ "\"."
    causes := [reason.message] }

/-- What is done with what stands at the path of a program file. -/
def runEntry (session : Session) (path : String) : Entry → Simulation (Except Failure Unit)
  | .file content => execute World.host session (displayName path) content.toArray
  | .locked reason => pure (.error (unread path reason))
  | .directory => pure (.error (unread path .isDirectory))
  | .absent _ => pure (.error { message := "File \"" ++ path ++ "\" could not be found." })

theorem runFile_eq (session : Session) (path : String) (w : World) :
    runFile World.host session path w =
      announce World.host session (displayName path)
        (runEntry session path (w.tree.look w.current path)) w := by
  apply announce_congr
  have hfiles : ∀ text, World.host.files [path] (w.tell text) =
      some (w.tree.look w.current, w.tell text) := fun _ => rfl
  refine (bind_of_eq (hfiles _) _).trans ?_
  cases w.tree.look w.current path <;> rfl

theorem runFile_of_program (session : Session) (hprogram : w.program? path = some program) :
    runFile World.host session path w =
      announce World.host session (displayName path)
        (execute World.host session (displayName path) program) w := by
  rw [runFile_eq, World.program?_eq_some_iff.mp hprogram]
  rfl

/-- A path without a readable file is reported, and nothing else happens. -/
theorem runFile_of_unreadable (session : Session) (hprogram : w.program? path = none) :
    ∃ failure, runFile World.host session path w =
      some (.error failure,
        w.tell (infoText session ("Running file \"" ++ displayName path ++ "\"."))) := by
  rw [runFile_eq]
  cases hlook : w.tree.look w.current path with
  | file content => simp [World.program?, hlook, Entry.read] at hprogram
  | locked reason => exact ⟨_, announce_of_error rfl⟩
  | directory => exact ⟨_, announce_of_error rfl⟩
  | absent reason => exact ⟨_, announce_of_error rfl⟩

end Files

section Sessions

/-- The session of some flags in a world. -/
def World.session (flags : Flags) (w : World) : Except SessionError Session :=
  flags.resolve ⟨w.tree.look w.current, w.environment, w.home⟩ w.directory

variable {flags : Flags} {session : Session} {w w' : World}

theorem withSession_of_ok (h : w.session flags = .ok session)
    (work : Session → Simulation (Except Failure Unit)) :
    withSession World.host w.environment w.directory flags work w = work session w := by
  have hhome : World.host.home w = some (w.home, w) := rfl
  have hfiles : World.host.files (flags.consulted w.home w.directory) w =
      some (w.tree.look w.current, w) := rfl
  refine (bind_of_eq hhome _).trans ((bind_of_eq hfiles _).trans ?_)
  rw [World.session] at h
  rw [h]

theorem concluded_of_ok {work : Simulation (Except Failure Unit)}
    (h : work w = some (.ok (), w')) : concluded World.host work w = some (0, w') :=
  bind_of_eq h _

theorem concluded_of_error {work : Simulation (Except Failure Unit)} {failure : Failure}
    (h : work w = some (.error failure, w')) :
    concluded World.host work w = some (1, w'.tell (failure.report ++ "\n")) := by
  refine (bind_of_eq h _).trans ?_
  exact bind_of_eq (say_eq w' _) _

end Sessions

end Command

end ErrorFree
