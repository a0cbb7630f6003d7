import ErrorFree.Proofs.Command.Succession
import ErrorFree.Proofs.Config.Lookup

/-!
# Random programs, saved and run again

**Bytes.**  `randomProgram n s` are the bytes of a random program: the length and the seed decide
them, whatever the session.

**Seeds.**  A random program runs with the seed after its own.  A seed that is given by a flag is
the seed of the session, and changes nothing else in it (`resolve_withSeed`).

**Result.**  `perform_random_replay`: a random program that was saved can be run from its file, with
the seed after its own.  The saved file changes nothing in the session unless it is one of the
configuration files, so that both commands run the same bytes on the same machine.  A program that
cannot be saved does not run, for nothing comes of it whatever running would do.
-/

namespace ErrorFree

section Bytes

theorem RandomSource.size_extendProgram (n : Nat) (program : Array UInt8) (s : RandomSource) :
    (extendProgram n program s).1.size = program.size + n := by
  induction n generalizing program s with
  | zero => rfl
  | succ n ih =>
      rw [extendProgram, ih, Array.size_push]
      omega

/-- The bytes of a random program. -/
def Command.randomProgram (n : Nat) (s : UInt64) : Array UInt8 :=
  ((RandomSource.ofSeed s).program n).1

theorem Command.size_randomProgram (n : Nat) (s : UInt64) : (randomProgram n s).size = n :=
  (RandomSource.size_extendProgram n #[] _).trans (Nat.zero_add n)

end Bytes

section Seeds

/-- The session with another seed. -/
def Session.withSeed (seed : Nat) (session : Session) : Session :=
  { session with runtime := { session.runtime with seed := some seed } }

/-- The flags with another seed. -/
def Flags.withSeed (seed : Nat) (flags : Flags) : Flags := { flags with seed := some seed }

theorem Flags.resolve_withSeed {flags : Flags} {here : Surroundings} {directory : String}
    {session : Session} {seed : Nat}
    (h : (flags.withSeed seed).resolve here directory = .ok session) :
    session.runtime.seed = some seed ∧
      ∀ other, (flags.withSeed other).resolve here directory = .ok (session.withSeed other) := by
  obtain ⟨config, hloaded, rfl⟩ := resolve_eq_ok_iff.mp h
  exact ⟨rfl, fun other => resolve_eq_ok_iff.mpr ⟨config, hloaded, rfl⟩⟩

theorem Command.nextSeed_toNat (s : UInt64) : nextSeed s.toNat = (s + 1).toNat := by
  rw [UInt64.toNat_add]
  rfl

theorem Command.randomSession_eq {session : Session} {s : UInt64}
    (h : session.runtime.seed = some s.toNat) :
    randomSession session = session.withSeed (s + 1).toNat := by
  rw [randomSession, h, Option.map_some, nextSeed_toNat]
  rfl

end Seeds

namespace Command

open Machine

section Random

variable {session : Session} {n : Nat} {s : UInt64} {f : String} {w : World} {tree : FileTree}
  {run : RuntimeSettings → RandomSource → Option String → Array UInt8 →
    Simulation (Except IoError Stats)}

/-- What is told about a random program that was saved. -/
def savedText (session : Session) (n : Nat) (path : String) : String :=
  infoText session ("Saved " ++ toString n ++ " random bytes to \"" ++ path ++ "\".")

/-- The failure to save a random program. -/
def unsaved (path : String) (reason : IoError) : Failure :=
  { message := "Failed to save random program to " ++ path, causes := [reason.message] }

theorem source_of_seed (hseed : session.runtime.seed = some s.toNat) :
    World.host.source session.runtime.seed w = some (RandomSource.ofSeed s, w) := by
  rw [hseed, Host.source, UInt64.ofNat_toNat]
  rfl

theorem saveProgram_of_ok {program : Array UInt8}
    (hsave : w.tree.save w.current f program.toList = .ok tree) :
    saveProgram World.host session (some f) program w =
      some (.ok (), ({ w with tree } : World).tell (savedText session program.size f)) := by
  have hhost : World.host.save f program.toList w = some (.ok (), { w with tree }) := by
    simp [World.host, World.save, hsave]
  refine (bind_of_eq hhost _).trans ?_
  exact bind_of_eq (info_eq session _ _) _

theorem runRandom_of_saved (hseed : session.runtime.seed = some s.toNat)
    (hsave : w.tree.save w.current f (randomProgram n s).toList = .ok tree) :
    runRandom World.host session n (some f) w =
      announce World.host (session.withSeed (s + 1).toNat) randomName
        (execute World.host (session.withSeed (s + 1).toNat) randomName (randomProgram n s))
        (({ w with tree } : World).tell (savedText session n f)) := by
  refine (bind_of_eq (source_of_seed hseed) _).trans ?_
  refine (bind_of_eq (saveProgram_of_ok hsave) _).trans ?_
  rw [size_randomProgram, randomSession_eq hseed]
  rfl

/-- Without a file nothing runs, whatever a run would do. -/
theorem runRandom_of_unsaved {reason : IoError} (hseed : session.runtime.seed = some s.toNat)
    (hsave : w.tree.save w.current f (randomProgram n s).toList = .error reason) :
    runRandom { World.host with run } session n (some f) w =
      some (.error (unsaved f reason), w) := by
  have hhost : World.host.save f (randomProgram n s).toList w = some (.error reason, w) := by
    simp [World.host, World.save, hsave]
  refine (bind_of_eq (source_of_seed hseed) _).trans ?_
  refine (bind_of_eq (a := .error _) ((bind_of_eq hhost _).trans rfl) _).trans ?_
  rfl

end Random

section Replay

variable {flags : Flags} {session : Session} {n : Nat} {s : UInt64} {f : String} {w : World}
  {tree : FileTree} {content : List UInt8}

/-- A saved file that is not looked up changes no session. -/
theorem session_of_saved {seed other : Nat}
    (hsession : w.session (flags.withSeed seed) = .ok session)
    (hsave : w.tree.save w.current f content = .ok tree)
    (hfree : ∀ path ∈ flags.lookedUp ⟨w.tree.look w.current, w.environment, w.home⟩ w.directory,
      w.tree.place? w.current path ≠ w.tree.place? w.current f) :
    ({ w with tree } : World).session (flags.withSeed other) = .ok (session.withSeed other) := by
  have hother := (Flags.resolve_withSeed hsession).2 other
  show (flags.withSeed other).resolve ⟨tree.look w.current, w.environment, w.home⟩ w.directory = _
  refine Flags.resolve_of_alike hother rfl rfl fun path hpath => ?_
  exact FileTree.look_save_other hsave (hfree path hpath)

/-- One file that can be read and runs to its end. -/
theorem perform_run_of_file {program : Array UInt8} {seed : Nat} {termination : Termination}
    {r : Run} (hsession : w.session flags = .ok session) (hseed : session.runtime.seed = some seed)
    (hprogram : w.program? f = some program)
    (hrun : Machine.run session.runtime w.patience session.showsProgress program
        (Machine.create session.runtime ⟨w.input, w.output⟩
          (RandomSource.ofSeed (UInt64.ofNat seed)) w.clock) =
      (some (.ended termination), r)) :
    perform World.host w.environment w.directory (.run [f] flags) w =
      some (0, (w.ran r).tell
        (fileText session (displayName f) ⟨program.size, r.cycles, w.elapsed, termination⟩)) := by
  have hfile := (runFile_of_program session hprogram).trans (announce_execute hseed hrun)
  have heach : runEach World.host session [f] w = some (0, _) := runEach_of_ok hfile rfl
  exact concluded_of_ok ((withSession_of_ok hsession _).trans (runFiles_of_each heach))

/-- **A saved random program replays.**  If it cannot be saved, the command fails, whatever a run
would do.  If it can, both commands run the same bytes to the same end, `w₁.output` is the output
of both, and they tell of the same bytes, cycles and termination.  The second command starts with
the input, the output and the clock of the first one; the time that runs take may differ. -/
theorem perform_random_replay (n : Nat) (s : UInt64) (flags : Flags) (f : String) (w : World)
    (session : Session) (hsession : w.session (flags.withSeed s.toNat) = .ok session) :
    (randomProgram n s).size = n ∧
    (∀ reason, w.tree.save w.current f (randomProgram n s).toList = .error reason →
      ∀ run,
        perform { World.host with run } w.environment w.directory
            (.random n (some f) (flags.withSeed s.toNat)) w =
          some (1, w.tell ((unsaved f reason).report ++ "\n"))) ∧
    ∀ tree limit,
      w.tree.save w.current f (randomProgram n s).toList = .ok tree →
      session.runtime.maxCycles = some limit → w.output.NeverFails →
      (∀ path ∈ flags.lookedUp ⟨w.tree.look w.current, w.environment, w.home⟩ w.directory,
        w.tree.place? w.current path ≠ w.tree.place? w.current f) →
      ∃ w₁ r termination,
        perform World.host w.environment w.directory
          (.random n (some f) (flags.withSeed s.toNat)) w = some (0, w₁) ∧
        w₁.tree.look w.current f = .file (randomProgram n s).toList ∧
        Machine.run (session.withSeed (s + 1).toNat).runtime w.patience session.showsProgress
            (randomProgram n s)
            (Machine.create session.runtime ⟨w.input, w.output⟩ (RandomSource.ofSeed (s + 1))
              w.clock) =
          (some (.ended termination), r) ∧
        w₁.output = r.machine.console.output ∧
        w₁.told = w.told ++ savedText session n f ++
          fileText session randomName ⟨n, r.cycles, w.elapsed, termination⟩ ∧
        ∀ elapsed told,
          perform World.host w.environment w.directory
              (.run [f] (flags.withSeed (s + 1).toNat))
              { w₁ with input := w.input, output := w.output, clock := w.clock, elapsed, told } =
            some (0, { w₁ with
              elapsed
              told := told ++
                fileText session (displayName f) ⟨n, r.cycles, elapsed, termination⟩ }) := by
  obtain ⟨hseed, -⟩ := Flags.resolve_withSeed hsession
  refine ⟨size_randomProgram n s, ?_, ?_⟩
  · intro reason hsave run
    have hwork := withSession_of_ok hsession
      fun session => runRandom { World.host with run } session n (some f)
    exact concluded_of_error (hwork.trans (runRandom_of_unsaved hseed hsave))
  · intro tree limit hsave hlimit hout hfree
    have hlimit' : (session.withSeed (s + 1).toNat).runtime.maxCycles = some limit := hlimit
    obtain ⟨termination, r, hrun, -, -⟩ :=
      run_settled w.patience session.showsProgress (randomProgram n s) hlimit'
        (m := create session.runtime ⟨w.input, w.output⟩ (RandomSource.ofSeed (s + 1)) w.clock) hout
    -- The seed of a session is a number, that of a source a word.
    have hsource : RandomSource.ofSeed (s + 1) =
        RandomSource.ofSeed (UInt64.ofNat (s + 1).toNat) := by
      rw [UInt64.ofNat_toNat]
    have hrun' := hrun
    rw [hsource] at hrun'
    have hnext : (session.withSeed (s + 1).toNat).runtime.seed = some (s + 1).toNat := rfl
    have hfirst := (runRandom_of_saved hseed hsave).trans (announce_execute hnext hrun')
    rw [size_randomProgram] at hfirst
    refine ⟨_, r, termination, concluded_of_ok ((withSession_of_ok hsession _).trans hfirst),
      FileTree.look_save_self hsave, hrun, rfl, rfl, ?_⟩
    intro elapsed told
    have hsecond := perform_run_of_file (w := { w with tree, elapsed, told })
      (session_of_saved hsession hsave hfree) hnext
      (World.program?_eq_some_iff.mpr (FileTree.look_save_self hsave)) hrun'
    rw [size_randomProgram] at hsecond
    exact hsecond

/-- A world without files, variables and input. -/
def World.bare : World where
  input := { rest := [] }
  clock := { seconds := fun _ => 0 }
  patience := 0

/-- A random program of the last seed runs again with seed zero. -/
theorem perform_random_replay_last :
    ∃ w₁ w₂, perform World.host World.bare.environment World.bare.directory
        (.random 3 (some "out") (Flags.withSeed 18446744073709551615 { maxCycles := some 5 }))
        World.bare = some (0, w₁) ∧
      w₁.tree.look [] "out" = .file (randomProgram 3 18446744073709551615).toList ∧
      perform World.host World.bare.environment World.bare.directory
        (.run ["out"] (Flags.withSeed 0 { maxCycles := some 5 }))
        { w₁ with
          input := World.bare.input, output := World.bare.output, clock := World.bare.clock } =
        some (0, w₂) ∧
      w₂.output = w₁.output := by
  have hsession : World.bare.session
      (Flags.withSeed (18446744073709551615 : UInt64).toNat { maxCycles := some 5 }) =
    .ok { runtime := { maxCycles := some 5, seed := some 18446744073709551615 } } := rfl
  obtain ⟨-, -, hreplay⟩ := perform_random_replay 3 18446744073709551615 { maxCycles := some 5 }
    "out" World.bare _ hsession
  obtain ⟨w₁, r, termination, hfirst, hfile, -, -, -, hsecond⟩ :=
    hreplay _ 5 rfl rfl neverFails_fresh (by decide +kernel)
  exact ⟨w₁, _, hfirst, hfile, hsecond w₁.elapsed w₁.told, rfl⟩

end Replay

end Command

end ErrorFree
