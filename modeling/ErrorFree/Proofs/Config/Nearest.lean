import ErrorFree.Proofs.Config.Layers
import ErrorFree.Proofs.Files.Ancestors

/-!
# The nearest project file

**Nearest.**  Of the ancestors of a directory, the directory itself first, the nearest one is the
first at which the project file is a regular file; those before it have none, or a directory in its
place.

**Agreement.**  Two surroundings agree on some paths if the variables and the home directory are the
same and so is what stands at each of these paths.  What is loaded depends on the project files up
to the nearest one and on the file in the home directory (`fromDirectory_of_agree`).

**Loaders.**  A loader that was asked keeps at most the path of the file in the home directory, and
it would find that again; so it answers like a fresh one (`fromDirectory_after`).

**Result.**  `fromDirectory_nearest`.
-/

namespace ErrorFree

/-- The path of the project file in a directory. -/
def projectFileIn (directory : String) : String := Path.join directory projectFileName

/-- A regular file, whether it can be read or not. -/
def Entry.Regular (entry : Entry) : Prop :=
  (∃ content, entry = .file content) ∨ ∃ reason, entry = .locked reason

/-- The first ancestor of a directory with a project file is the one with number `n`. -/
structure Nearest (files : String → Entry) (directory : String) (n : Nat) (ancestor : String) :
    Prop where
  ancestor_at : (Path.ancestors directory)[n]? = some ancestor
  regular : (files (projectFileIn ancestor)).Regular
  skipped : ∀ k < n, ∀ nearer, (Path.ancestors directory)[k]? = some nearer →
    files (projectFileIn nearer) = .directory ∨
      ∃ reason, files (projectFileIn nearer) = .absent reason

section Search

variable {files files' : String → Entry} {directory ancestor : String} {n : Nat}

theorem Entry.isFile_iff {entry : Entry} : entry.isFile = true ↔ entry.Regular := by
  cases entry <;> simp [Entry.isFile, Entry.Regular]

theorem Entry.not_isFile_iff {entry : Entry} :
    entry.isFile = false ↔ entry = .directory ∨ ∃ reason, entry = .absent reason := by
  cases entry <;> simp [Entry.isFile]

theorem findProjectFile_eq (files : String → Entry) (directory : String) :
    findProjectFile files directory =
      ((Path.ancestors directory).map projectFileIn).find? fun path => (files path).isFile := rfl

theorem Nearest.find (h : Nearest files directory n ancestor) :
    findProjectFile files directory = some (projectFileIn ancestor) := by
  obtain ⟨hn, hancestor⟩ := List.getElem?_eq_some_iff.mp h.ancestor_at
  rw [findProjectFile_eq, List.find?_eq_some_iff_getElem]
  refine ⟨Entry.isFile_iff.mpr h.regular, n, by rwa [List.length_map], ?_, ?_⟩
  · rw [List.getElem_map, hancestor]
  · intro k hk
    have hskipped := h.skipped k hk _ (List.getElem?_eq_getElem (hk.trans hn))
    rw [List.getElem_map, Entry.not_isFile_iff.mpr hskipped]
    rfl

theorem exists_nearest {path : String} (h : findProjectFile files directory = some path) :
    ∃ n ancestor, Nearest files directory n ancestor ∧ path = projectFileIn ancestor := by
  rw [findProjectFile_eq, List.find?_eq_some_iff_getElem] at h
  obtain ⟨hfile, n, hn, hpath, hbefore⟩ := h
  rw [List.getElem_map] at hpath
  rw [List.length_map] at hn
  refine ⟨n, (Path.ancestors directory)[n], ⟨List.getElem?_eq_getElem hn, ?_, ?_⟩, hpath.symm⟩
  · rw [hpath]
    exact Entry.isFile_iff.mp hfile
  · intro k hk nearer hnearer
    have hskipped := hbefore k hk
    obtain ⟨hlength, rfl⟩ := List.getElem?_eq_some_iff.mp hnearer
    rw [List.getElem_map, Bool.not_eq_true'] at hskipped
    exact Entry.not_isFile_iff.mp hskipped

/-- The nearest project file stays the nearest if nothing up to it changes. -/
theorem Nearest.of_agree (h : Nearest files directory n ancestor)
    (hagree : ∀ path ∈ ((Path.ancestors directory).take (n + 1)).map projectFileIn,
      files' path = files path) : Nearest files' directory n ancestor := by
  have hsame : ∀ k ≤ n, ∀ nearer, (Path.ancestors directory)[k]? = some nearer →
      files' (projectFileIn nearer) = files (projectFileIn nearer) := by
    intro k hk nearer hnearer
    apply hagree
    apply List.mem_map_of_mem
    rw [List.mem_iff_getElem?]
    exact ⟨k, by rw [List.getElem?_take_of_lt (Nat.lt_succ_of_le hk), hnearer]⟩
  refine ⟨h.ancestor_at, ?_, ?_⟩
  · rw [hsame n (Nat.le_refl n) ancestor h.ancestor_at]
    exact h.regular
  · intro k hk nearer hnearer
    rw [hsame k (Nat.le_of_lt hk) nearer hnearer]
    exact h.skipped k hk nearer hnearer

end Search

section Agreement

/-- The same variables, the same home directory, and the same at some paths. -/
structure Surroundings.Agree (here here' : Surroundings) (paths : List String) : Prop where
  environment : here'.environment = here.environment
  home : here'.home = here.home
  files : ∀ path ∈ paths, here'.files path = here.files path

namespace Loader

variable {l : Loader} {here here' : Surroundings} {directory path ancestor : String} {n : Nat}

/-- The path of the file in the home directory, where a loader looks for it. -/
def homePath (l : Loader) (here : Surroundings) : Option String :=
  l.globalPath.or here.globalPath?

theorem assemble_of_agree {paths : List String} (h : here.Agree here' paths)
    (hhome : ∀ home ∈ l.homePath here, home ∈ paths) (project : ConfigFile)
    (projectFile : Option String) :
    l.assemble here' project projectFile = l.assemble here project projectFile := by
  have hglobal : loadGlobal here'.files (l.homePath here) =
      loadGlobal here.files (l.homePath here) := by
    cases hpath : l.homePath here with
    | none => rfl
    | some home => simp only [loadGlobal, h.files home (hhome home hpath)]
  have hlayers : layers here' (l.homePath here) project projectFile =
      layers here (l.homePath here) project projectFile := by
    simp only [layers, hglobal, h.environment]
  rw [homePath] at hlayers
  rw [assemble, Surroundings.globalPath?_of_home h.home, hlayers, assemble]

theorem fromFile_of_agree {paths : List String} (h : here.Agree here' paths) (hpath : path ∈ paths)
    (hhome : ∀ home ∈ l.homePath here, home ∈ paths) :
    l.fromFile here' path = l.fromFile here path := by
  simp only [fromFile, h.files path hpath, assemble_of_agree h hhome]

theorem fromDirectory_of_nearest (h : Nearest here.files directory n ancestor) :
    l.fromDirectory here directory = l.fromFile here (projectFileIn ancestor) := by
  rw [fromDirectory, h.find]

theorem projectFile_of_loaded {config : Config}
    (h : (l.fromDirectory here directory).1 = .ok config) :
    config.projectFile = findProjectFile here.files directory := by
  rw [fromDirectory_eq] at h
  obtain ⟨_, _, -, -, -, rfl⟩ := Surroundings.loaded_eq_ok h
  rfl

/-- Files that are farther away than the nearest one make no difference. -/
theorem fromDirectory_of_agree (hnearest : Nearest here.files directory n ancestor)
    (h : here.Agree here' (((Path.ancestors directory).take (n + 1)).map projectFileIn ++
      (l.homePath here).toList)) :
    l.fromDirectory here' directory = l.fromDirectory here directory := by
  have hmem : projectFileIn ancestor ∈
      ((Path.ancestors directory).take (n + 1)).map projectFileIn := by
    apply List.mem_map_of_mem
    rw [List.mem_iff_getElem?]
    exact ⟨n, by rw [List.getElem?_take_of_lt (Nat.lt_succ_self n), hnearest.ancestor_at]⟩
  have hnearest' : Nearest here'.files directory n ancestor :=
    hnearest.of_agree fun path hpath => h.files path (List.mem_append_left _ hpath)
  rw [fromDirectory_of_nearest hnearest, fromDirectory_of_nearest hnearest']
  apply fromFile_of_agree h (List.mem_append_left _ hmem)
  intro home hhome
  exact List.mem_append_right _ (Option.mem_toList.mpr hhome)

/-- Without a project file only the places where one could be count. -/
theorem fromDirectory_of_agree_none (hnone : findProjectFile here.files directory = none)
    (h : here.Agree here' ((Path.ancestors directory).map projectFileIn ++
      (l.homePath here).toList)) :
    l.fromDirectory here' directory = l.fromDirectory here directory := by
  have hnone' : findProjectFile here'.files directory = none := by
    rw [findProjectFile_eq, List.find?_eq_none] at hnone ⊢
    intro path hpath
    rw [h.files path (List.mem_append_left _ hpath)]
    exact hnone path hpath
  rw [fromDirectory, fromDirectory, hnone, hnone']
  apply assemble_of_agree h
  intro home hhome
  exact List.mem_append_right _ (Option.mem_toList.mpr hhome)

end Loader

end Agreement

section Asking

/-- What a loader can be asked for. -/
inductive Lookup where
  | directory (path : String)
  | file (path : String)

namespace Loader

variable (l : Loader) (here : Surroundings)

/-- Asks a loader. -/
def ask : Lookup → Except ConfigError Config × Loader
  | .directory path => l.fromDirectory here path
  | .file path => l.fromFile here path

/-- A loader after it was asked several times. -/
def after (lookups : List Lookup) : Loader :=
  lookups.foldl (fun l lookup => (l.ask here lookup).2) l

theorem homePath_fromFile (path : String) :
    (l.fromFile here path).2.homePath here = l.homePath here := by
  unfold fromFile
  cases ConfigFile.load path (here.files path) with
  | error e => rfl
  | ok project =>
      show ((l.globalPath.or _).or _) = _
      rw [Option.or_assoc, Option.or_self]
      rfl

theorem homePath_ask (lookup : Lookup) :
    (l.ask here lookup).2.homePath here = l.homePath here := by
  cases lookup with
  | file path => exact l.homePath_fromFile here path
  | directory path =>
      show (l.fromDirectory here path).2.homePath here = _
      unfold fromDirectory
      cases findProjectFile here.files path with
      | none =>
          show ((l.globalPath.or _).or _) = _
          rw [Option.or_assoc, Option.or_self]
          rfl
      | some path => exact l.homePath_fromFile here path

theorem homePath_after (lookups : List Lookup) :
    (l.after here lookups).homePath here = l.homePath here := by
  induction lookups generalizing l with
  | nil => rfl
  | cons lookup lookups ih => exact (ih (l.ask here lookup).2).trans (l.homePath_ask here lookup)

/-- A loader that was asked answers like a fresh one. -/
theorem fromDirectory_after (lookups : List Lookup) (directory : String) :
    ((l.after here lookups).fromDirectory here directory).1 =
      (l.fromDirectory here directory).1 := by
  have hhome := l.homePath_after here lookups
  rw [homePath, homePath] at hhome
  rw [fromDirectory_eq, fromDirectory_eq, hhome]

end Loader

end Asking

namespace Loader

/-- **Only the nearest project file counts.**  The ancestors of a directory are the directory itself,
its parent, the parent of that and so on, one for each number of components left out, each written as
the directory begins; the last one is the root or, of a relative directory, the empty path.  The
project file of an ancestor has one component more.  If there is a nearest ancestor with a project
file, that file is loaded and reported, and neither the outcome nor the loader depends on other files
than the project files up to it and the one in the home directory; without any, none is reported.  A
loader that was asked before answers like a fresh one. -/
theorem fromDirectory_nearest (l : Loader) (here : Surroundings) (directory : String) :
    (Path.ancestors directory).length = (Path.components directory).length + 1 ∧
    (Path.ancestors directory)[0]? = some directory ∧
    (∀ n, (Path.ancestors directory)[n + 1]? = (Path.ancestors directory)[n]?.bind Path.parent?) ∧
    (∀ n ancestor, (Path.ancestors directory)[n]? = some ancestor →
      Path.isAbsolute ancestor = Path.isAbsolute directory ∧
      Path.components ancestor =
        (Path.components directory).take ((Path.components directory).length - n) ∧
      ancestor.toList <+: directory.toList) ∧
    (Path.isAbsolute directory = false → (Path.ancestors directory).getLast? = some "") ∧
    (Path.isAbsolute directory = true →
      (Path.ancestors directory).getLast? =
        some (if Path.components directory = [] then directory else "/")) ∧
    (∀ ancestor, Path.isAbsolute (projectFileIn ancestor) = Path.isAbsolute ancestor ∧
      Path.components (projectFileIn ancestor) = Path.components ancestor ++ ["efrt.toml"]) ∧
    (∀ n ancestor, Nearest here.files directory n ancestor →
      l.fromDirectory here directory = l.fromFile here (projectFileIn ancestor) ∧
      (∀ config, (l.fromDirectory here directory).1 = .ok config →
        config.projectFile = some (projectFileIn ancestor)) ∧
      ∀ here', here.Agree here' (((Path.ancestors directory).take (n + 1)).map projectFileIn ++
          (l.homePath here).toList) →
        l.fromDirectory here' directory = l.fromDirectory here directory) ∧
    ((¬ ∃ n ancestor, Nearest here.files directory n ancestor) →
      (∀ config, (l.fromDirectory here directory).1 = .ok config → config.projectFile = none) ∧
      ∀ here', here.Agree here' ((Path.ancestors directory).map projectFileIn ++
          (l.homePath here).toList) →
        l.fromDirectory here' directory = l.fromDirectory here directory) ∧
    ∀ lookups, ((l.after here lookups).fromDirectory here directory).1 =
      (l.fromDirectory here directory).1 := by
  refine ⟨Path.length_ancestors directory, Path.getElem?_ancestors_zero directory,
    Path.getElem?_ancestors_succ directory, ?_, ?_, ?_,
    Path.components_join (by decide) (by decide), ?_, ?_,
    fun lookups => l.fromDirectory_after here lookups directory⟩
  · intro n ancestor hancestor
    obtain ⟨habsolute, hcomponents⟩ := Path.components_of_ancestor hancestor
    exact ⟨habsolute, hcomponents, Path.isPrefix_of_ancestor hancestor⟩
  · intro hrelative
    rw [Path.getLast?_ancestors, hrelative]
    split
    · rename_i hnone
      rw [Path.eq_empty_of_components hrelative hnone]
    · rfl
  · intro habsolute
    rw [Path.getLast?_ancestors, habsolute]
    rfl
  · intro n ancestor hnearest
    refine ⟨fromDirectory_of_nearest hnearest, ?_, fun here' => fromDirectory_of_agree hnearest⟩
    intro config hconfig
    rw [projectFile_of_loaded hconfig, hnearest.find]
  · intro hnone
    have hfind : findProjectFile here.files directory = none := by
      cases hpath : findProjectFile here.files directory with
      | none => rfl
      | some path =>
          obtain ⟨n, ancestor, hnearest, -⟩ := exists_nearest hpath
          exact absurd ⟨n, ancestor, hnearest⟩ hnone
    refine ⟨?_, fun here' => fromDirectory_of_agree_none hfind⟩
    intro config hconfig
    rw [projectFile_of_loaded hconfig, hfind]

/-- A directory in the place of the nearest project file under a base, and any entries in the places
of the next two. -/
def twoAbove (base : String) (middle top : Entry) : Surroundings where
  files path :=
    if path = base ++ "a/b/efrt.toml" then .directory
    else if path = base ++ "a/efrt.toml" then middle
    else if path = base ++ "efrt.toml" then top
    else .absent .notFound
  environment _ := none
  home := none

/-- A project file with a seed. -/
def seeded : Entry := .file (Utf8.encode "[runtime]\nseed = 3\n".toList)

/-- Without a file in the middle the one on top is the nearest. -/
theorem nearest_top {base directory middle : String}
    (hancestors : Path.ancestors directory = [directory, middle, base])
    (hdirectory : projectFileIn directory = base ++ "a/b/efrt.toml")
    (hmiddle : projectFileIn middle = base ++ "a/efrt.toml")
    (hbase : projectFileIn base = base ++ "efrt.toml") :
    Nearest (twoAbove base (.absent .notFound) seeded).files directory 2 base := by
  refine ⟨by rw [hancestors]; rfl, ?_, ?_⟩
  · have hfile :
        (twoAbove base (.absent .notFound) seeded).files (base ++ "efrt.toml") = seeded := by
      simp [twoAbove]
    rw [hbase, hfile]
    exact Or.inl ⟨_, rfl⟩
  · intro k hk nearer hnearer
    rw [hancestors] at hnearer
    obtain rfl | rfl : k = 0 ∨ k = 1 := by omega
    · obtain rfl := Option.some.inj hnearer
      rw [hdirectory]
      exact Or.inl (by simp [twoAbove])
    · obtain rfl := Option.some.inj hnearer
      rw [hmiddle]
      exact Or.inr ⟨.notFound, by simp [twoAbove]⟩

/-- From an absolute directory the walk stops at the nearest file, so that a malformed one above it
makes no difference, and otherwise it goes on to the root; from a relative one it goes on to the
empty path. -/
theorem fromDirectory_nearest_malformed :
    let malformed := twoAbove "/" seeded (.file (Utf8.encode "[".toList))
    let missing := twoAbove "/" seeded (.absent .notFound)
    let rooted := twoAbove "/" (.absent .notFound) seeded
    let relative := twoAbove "" (.absent .notFound) seeded
    Nearest malformed.files "/a/b" 1 "/a" ∧
      (∃ config, (fromDirectory {} malformed "/a/b").1 = .ok config ∧
        config.runtime.seed = some 3 ∧ config.projectFile = some "/a/efrt.toml") ∧
      malformed.Agree missing ["/a/b/efrt.toml", "/a/efrt.toml"] ∧
      fromDirectory {} missing "/a/b" = fromDirectory {} malformed "/a/b" ∧
      ((after {} malformed [.directory "/a/b", .file "/efrt.toml"]).fromDirectory
        malformed "/a/b").1 = (fromDirectory {} malformed "/a/b").1 ∧
      Nearest rooted.files "/a/b" 2 "/" ∧
      fromDirectory {} rooted "/a/b" = fromFile {} rooted "/efrt.toml" ∧
      Nearest relative.files "a/b" 2 "" ∧
      fromDirectory {} relative "a/b" = fromFile {} relative "efrt.toml" := by
  intro malformed missing rooted relative
  have hnearest : Nearest malformed.files "/a/b" 1 "/a" := by
    refine ⟨rfl, Or.inl ⟨_, rfl⟩, ?_⟩
    intro k hk nearer hnearer
    obtain rfl : k = 0 := by omega
    obtain rfl := Option.some.inj hnearer
    exact Or.inl rfl
  have hagree : malformed.Agree missing ["/a/b/efrt.toml", "/a/efrt.toml"] := by
    refine ⟨rfl, rfl, ?_⟩
    intro path hpath
    simp only [List.mem_cons, List.not_mem_nil, or_false] at hpath
    rcases hpath with rfl | rfl <;> rfl
  obtain ⟨-, -, -, -, -, -, -, hloads, -, hagain⟩ := fromDirectory_nearest {} malformed "/a/b"
  obtain ⟨hfile, hreported, hsame⟩ := hloads 1 "/a" hnearest
  have hconfig : ∃ config, (fromDirectory {} malformed "/a/b").1 = .ok config ∧
      config.runtime.seed = some 3 := by
    rw [hfile]
    exact ⟨_, rfl, rfl⟩
  obtain ⟨config, hconfig, hseed⟩ := hconfig
  have hrooted : Nearest rooted.files "/a/b" 2 "/" := nearest_top rfl rfl rfl rfl
  have hrelative : Nearest relative.files "a/b" 2 "" := nearest_top rfl rfl rfl rfl
  obtain ⟨-, -, -, -, -, -, -, hloads', -, -⟩ := fromDirectory_nearest {} rooted "/a/b"
  obtain ⟨-, -, -, -, -, -, -, hloads'', -, -⟩ := fromDirectory_nearest {} relative "a/b"
  exact ⟨hnearest, ⟨config, hconfig, hseed, hreported config hconfig⟩, hagree, hsame missing hagree,
    hagain _, hrooted, (hloads' 2 "/" hrooted).1, hrelative, (hloads'' 2 "" hrelative).1⟩

end Loader

end ErrorFree
