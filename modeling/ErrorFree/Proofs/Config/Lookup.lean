import ErrorFree.Proofs.Config.Layers
import ErrorFree.Proofs.Files.Saving

/-!
# The files that a session depends on

Of all files only few have a say in a session: the project file that is named, or those that are
looked at until one is found, and the file in the home directory (`Flags.lookedUp`).  Where these
stay as they are, or stay away, the session stays the same (`resolve_of_alike`).
-/

namespace ErrorFree

namespace Entry

variable {e e' : Entry}

theorem isFile_of_absent (h : e.isPresent = false) : e.isFile = false := by
  cases e with
  | file content => cases h
  | locked reason => cases h
  | directory => rfl
  | absent reason => rfl

namespace Alike

theorem isPresent_eq (h : e.Alike e') : e'.isPresent = e.isPresent := by
  rcases h with rfl | ⟨he, he'⟩
  · rfl
  · rw [he, he']

theorem isFile_eq (h : e.Alike e') : e'.isFile = e.isFile := by
  rcases h with rfl | ⟨he, he'⟩
  · rfl
  · rw [isFile_of_absent he, isFile_of_absent he']

theorem eq_of_present (h : e.Alike e') (hpresent : e.isPresent = true) : e' = e := by
  rcases h with rfl | ⟨he, -⟩
  · rfl
  · rw [hpresent] at he
    cases he

end Alike

end Entry

section Searching

variable {files files' : String → Entry}

/-- The candidates that are looked at until a file is found. -/
def searched (files : String → Entry) : List String → List String
  | [] => []
  | candidate :: rest => candidate :: if (files candidate).isFile then [] else searched files rest

theorem find?_of_searched {candidates : List String}
    (h : ∀ path ∈ searched files candidates, (files path).Alike (files' path)) :
    candidates.find? (fun path => (files' path).isFile) =
      candidates.find? (fun path => (files path).isFile) := by
  induction candidates with
  | nil => rfl
  | cons candidate rest ih =>
      have hfirst := (h candidate List.mem_cons_self).isFile_eq
      cases hfile : (files candidate).isFile with
      | true => simp only [List.find?_cons, hfirst, hfile]
      | false =>
          simp only [List.find?_cons, hfirst, hfile]
          apply ih
          intro path hpath
          apply h
          simp only [searched, hfile]
          exact List.mem_cons_of_mem candidate hpath

theorem mem_searched_of_find? {candidates : List String} {path : String}
    (h : candidates.find? (fun path => (files path).isFile) = some path) :
    path ∈ searched files candidates := by
  induction candidates with
  | nil => cases h
  | cons candidate rest ih =>
      cases hfile : (files candidate).isFile with
      | true =>
          simp only [List.find?_cons, hfile, Option.some.injEq] at h
          rw [← h]
          exact List.mem_cons_self
      | false =>
          simp only [List.find?_cons, hfile] at h
          simp only [searched, hfile]
          exact List.mem_cons_of_mem candidate (ih h)

end Searching

namespace Surroundings

variable {here here' : Surroundings} {path : String} {config : Config}
  {globalPath projectPath : Option String}

theorem present_of_load {entry : Entry} {file : ConfigFile}
    (h : ConfigFile.load path entry = .ok file) : entry.isPresent = true := by
  cases entry with
  | file content => rfl
  | locked reason => rfl
  | directory => rfl
  | absent reason => cases reason <;> cases h

theorem read_of_alike {path : Option String} {file : ConfigFile} (h : here.read path = .ok file)
    (halike : ∀ p ∈ path, (here.files p).Alike (here'.files p)) : here'.read path = .ok file := by
  cases path with
  | none => exact h
  | some p =>
      have hsame := (halike p rfl).eq_of_present (present_of_load h)
      rw [read, hsame]
      exact h

theorem present_of_alike (halike : ∀ p ∈ globalPath, (here.files p).Alike (here'.files p)) :
    here'.present globalPath = here.present globalPath := by
  cases globalPath with
  | none => rfl
  | some p => simp only [present, Option.filter, (halike p rfl).isPresent_eq]

theorem loaded_of_alike (h : here.loaded globalPath projectPath = .ok config)
    (hvariables : here'.environment = here.environment)
    (hproject : ∀ p ∈ projectPath, (here.files p).Alike (here'.files p))
    (hglobal : ∀ p ∈ globalPath, (here.files p).Alike (here'.files p)) :
    here'.loaded globalPath projectPath = .ok config := by
  obtain ⟨project, hread, hlayers⟩ := bind_eq_ok h
  obtain ⟨global, hload, -⟩ := bind_eq_ok hlayers
  have hload' : loadGlobal here'.files globalPath = .ok global := by
    rw [loadGlobal_eq] at hload ⊢
    rw [present_of_alike hglobal]
    exact read_of_alike hload fun p hp => hglobal p (Option.mem_filter_iff.mp hp).1
  have hlayers' : layers here' globalPath project projectPath = .ok config := by
    rw [← hlayers]
    simp only [layers, hload, hload', hvariables]
  rw [loaded, read_of_alike hread hproject]
  exact hlayers'

end Surroundings

namespace Flags

/-- The configuration files that are looked up for the session of some flags. -/
def lookedUp (flags : Flags) (here : Surroundings) (directory : String) : List String :=
  let projectFiles := match flags.config with
    | some path => [path]
    | none => searched here.files
        ((Path.ancestors directory).map fun ancestor => Path.join ancestor projectFileName)
  projectFiles ++ here.globalPath?.toList

variable {flags : Flags} {here here' : Surroundings} {directory : String} {session : Session}

theorem projectPath_of_alike
    (h : ∀ path ∈ flags.lookedUp here directory, (here.files path).Alike (here'.files path)) :
    flags.projectPath here' directory = flags.projectPath here directory := by
  unfold projectPath
  cases hconfig : flags.config with
  | some path => rfl
  | none =>
      apply find?_of_searched
      intro path hpath
      apply h
      simp only [lookedUp, hconfig]
      exact List.mem_append_left _ hpath

theorem mem_lookedUp_of_projectPath {path : String}
    (h : flags.projectPath here directory = some path) : path ∈ flags.lookedUp here directory := by
  unfold projectPath at h
  unfold lookedUp
  apply List.mem_append_left
  cases hconfig : flags.config with
  | some chosen =>
      rw [hconfig] at h
      simpa using (Option.some.inj h).symm
  | none =>
      rw [hconfig] at h
      exact mem_searched_of_find? h

/-- A session depends on no other files. -/
theorem resolve_of_alike (hsession : flags.resolve here directory = .ok session)
    (hvariables : here'.environment = here.environment) (hhome : here'.home = here.home)
    (h : ∀ path ∈ flags.lookedUp here directory, (here.files path).Alike (here'.files path)) :
    flags.resolve here' directory = .ok session := by
  obtain ⟨config, hloaded, happly⟩ := resolve_eq_ok_iff.mp hsession
  refine resolve_eq_ok_iff.mpr ⟨config, ?_, happly⟩
  rw [Surroundings.globalPath?_of_home hhome, projectPath_of_alike h]
  apply Surroundings.loaded_of_alike hloaded hvariables
  · exact fun path hpath => h path (mem_lookedUp_of_projectPath hpath)
  · intro path hpath
    exact h path (List.mem_append_right _ (Option.mem_toList.mpr hpath))

end Flags

end ErrorFree
