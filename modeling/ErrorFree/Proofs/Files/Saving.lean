import ErrorFree.Files.Tree
import Mathlib.Data.List.DropRight

/-!
# What a saved file changes

**Places.**  `FileTree.place?` is the place that a path leads to, whether something stands there or
not.  A file that is saved stands at the place of its path; since only a file or nothing was there
before, no walk led through that place, and paths lead where they led before.

**Results.**
* `look_save_self`: the file that was saved is there, with its bytes.
* `look_save_other`: a path to another place leads to what it led to, or still leads nowhere, maybe
  for another reason.
-/

namespace ErrorFree

namespace Entry

/-- The same, or nothing on both sides, for whatever reasons. -/
def Alike (e e' : Entry) : Prop := e = e' ∨ (e.isPresent = false ∧ e'.isPresent = false)

end Entry

namespace FileTree

variable {t tree : FileTree} {place : List String} {current : List String} {path : String}
  {content : List UInt8}

section Nodes

theorem lookup_filter_ne (nodes : List (List String × Node)) {place q : List String}
    (h : q ≠ place) : (nodes.filter fun entry => entry.1 ≠ place).lookup q = nodes.lookup q := by
  induction nodes with
  | nil => rfl
  | cons entry rest ih =>
      obtain ⟨p, node⟩ := entry
      by_cases hp : p = place
      · have hq : (q == p) = false := by simpa [hp] using h
        rw [List.filter_cons_of_neg (by simpa using hp), ih, List.lookup_cons, hq]
      · rw [List.filter_cons_of_pos (by simpa using hp), List.lookup_cons, List.lookup_cons, ih]

theorem node?_put_self (hplace : place ≠ []) (node : Node) :
    (t.put place node).node? place = some node := by
  simp [node?, put, hplace]

theorem node?_put_of_ne {q : List String} (h : q ≠ place) (node : Node) :
    (t.put place node).node? q = t.node? q := by
  have hq : (q == place) = false := by simpa using h
  simp only [node?, put, List.lookup_cons, hq, lookup_filter_ne t.nodes h]

/-- The root is a directory. -/
theorem ne_nil_of_not_directory (h : t.node? place ≠ some .directory) : place ≠ [] := by
  rintro rfl
  exact h rfl

end Nodes

section Walks

theorem walk_append (place : List String) (first second : List String) :
    t.walk place (first ++ second) = (t.walk place first).bind fun p => t.walk p second := by
  induction first generalizing place with
  | nil => rfl
  | cons segment rest ih =>
      simp only [List.cons_append, walk]
      cases t.node? place with
      | none => rfl
      | some node =>
          cases node with
          | file => rfl
          | locked => rfl
          | directory => simp only [ih]; split_ifs <;> rfl

/-- A file where no directory was stops no walk that was not stopped there before. -/
theorem walk_put (h : t.node? place ≠ some .directory) (q segments : List String) :
    ((t.put place (.file content)).walk q segments).toOption =
      (t.walk q segments).toOption := by
  induction segments generalizing q with
  | nil => rfl
  | cons segment rest ih =>
      by_cases hq : q = place
      · -- Both walks stop here, for different reasons if the place was empty.
        subst hq
        simp only [walk, node?_put_self (ne_nil_of_not_directory h)]
        cases hnode : t.node? q with
        | none => rfl
        | some node =>
            cases node with
            | file => rfl
            | locked => rfl
            | directory => exact absurd hnode h
      · simp only [walk, node?_put_of_ne hq]
        cases t.node? q with
        | none => rfl
        | some node =>
            cases node with
            | file => rfl
            | locked => rfl
            | directory =>
                split_ifs
                · exact ih q
                · exact ih q.dropLast
                · rfl
                · exact ih (q ++ [segment])

end Walks

section Places

/-- The place that a path leads to, whether something stands there or not. -/
def place? (t : FileTree) (current : List String) (path : String) : Option (List String) :=
  match pathFault? path with
  | some _ => none
  | none => (t.walk (start current path) (Path.segments path)).toOption

/-- What is found at a place with a node, or without one. -/
def found : Option Node → Entry
  | none => .absent .notFound
  | some (.file content) => .file content
  | some (.locked reason) => .locked reason
  | some .directory => .directory

theorem look_of_place (h : t.place? current path = some place) :
    t.look current path = found (t.node? place) := by
  unfold place? at h
  unfold look
  cases hfault : pathFault? path with
  | some reason => simp [hfault] at h
  | none =>
      cases hwalk : t.walk (start current path) (Path.segments path) with
      | error reason => simp [hfault, hwalk, Except.toOption] at h
      | ok p =>
          obtain rfl : p = place := by simpa [hfault, hwalk, Except.toOption] using h
          cases hnode : t.node? p with
          | none => simp [hnode, found]
          | some node => cases node <;> simp [hnode, found]

theorem look_of_no_place (h : t.place? current path = none) :
    (t.look current path).isPresent = false := by
  unfold place? at h
  unfold look
  cases hfault : pathFault? path with
  | some reason => rfl
  | none =>
      cases hwalk : t.walk (start current path) (Path.segments path) with
      | error reason => rfl
      | ok p => simp [hfault, hwalk, Except.toOption] at h

theorem place?_put (h : t.node? place ≠ some .directory) (content : List UInt8)
    (current : List String) (path : String) :
    (t.put place (.file content)).place? current path = t.place? current path := by
  unfold place?
  cases pathFault? path with
  | some reason => rfl
  | none => exact walk_put h _ _

end Places

section Saving

theorem walk_name {directory : List String} {name : String}
    (hdirectory : t.node? directory = some .directory) (htrivial : Path.isTrivial name = false)
    (hup : name ≠ "..") (hlimit : ¬ nameLimit < name.utf8ByteSize) :
    t.walk directory [name] = .ok (directory ++ [name]) := by
  simp [walk, hdirectory, htrivial, hup, hlimit]

theorem saveIn_eq_ok {directory : List String} {name : String}
    (h : t.saveIn directory name content = .ok tree) :
    ¬ nameLimit < name.utf8ByteSize ∧ t.node? (directory ++ [name]) ≠ some .directory ∧
      tree = t.put (directory ++ [name]) (.file content) := by
  unfold saveIn at h
  by_cases hlimit : nameLimit < name.utf8ByteSize
  · rw [if_pos hlimit] at h
    cases h
  · rw [if_neg hlimit] at h
    cases hnode : t.node? (directory ++ [name]) with
    | none =>
        rw [hnode] at h
        exact ⟨hlimit, nofun, (Except.ok.inj h).symm⟩
    | some node =>
        rw [hnode] at h
        cases node with
        | file => exact ⟨hlimit, nofun, (Except.ok.inj h).symm⟩
        | locked => cases h
        | directory => cases h

/-- Segments from which no empty one at the end can be left out end in a name. -/
theorem dropLast_concat_name {segments : List String} {name : String}
    (hname : (segments.rdropWhile (· = "")).getLast? = some name)
    (hlength : ¬ (segments.rdropWhile (· = "")).length < segments.length) :
    segments.rdropWhile (· = "") = segments ∧ segments.dropLast ++ [name] = segments ∧
      name ≠ "" := by
  have hall : segments.rdropWhile (· = "") = segments :=
    (List.rdropWhile_prefix _ _).eq_of_length_le (Nat.le_of_not_lt hlength)
  rw [hall] at hname
  have hsplit := List.dropLast_append_getLast? name hname
  refine ⟨hall, hsplit, ?_⟩
  rintro rfl
  rw [← hsplit, List.rdropWhile_concat_pos _ _ _ (by simp)] at hall
  have hle := (List.rdropWhile_prefix (fun x : String => decide (x = "")) segments.dropLast).length_le
  rw [hall, List.length_append, List.length_singleton] at hle
  exact absurd hle (Nat.not_succ_le_self _)

/-- What has to be right for a file to be saved. -/
theorem save_cases (h : t.save current path content = .ok tree) :
    ∃ name directory, pathFault? path = none ∧
      ((Path.segments path).rdropWhile (· = "")).getLast? = some name ∧
      t.walk (start current path) ((Path.segments path).rdropWhile (· = "")).dropLast =
        .ok directory ∧
      t.node? directory = some .directory ∧
      ¬ (((Path.segments path).rdropWhile (· = "")).length < (Path.segments path).length ∨
        name = "." ∨ name = "..") ∧
      t.saveIn directory name content = .ok tree := by
  unfold save at h
  split at h
  · cases h
  next hfault =>
    dsimp only at h
    split at h
    · cases h
    next name hname =>
      split at h
      · cases h
      next directory hwalk =>
        split at h
        · cases h
        · cases h
        · cases h
        next hdirectory =>
          split at h
          · cases h
          next hshape => exact ⟨name, directory, hfault, hname, hwalk, hdirectory, hshape, h⟩

/-- A file that was saved stands at the place of its path, where no directory was. -/
theorem save_eq_ok (h : t.save current path content = .ok tree) :
    ∃ place, t.place? current path = some place ∧ t.node? place ≠ some .directory ∧
      tree = t.put place (.file content) := by
  obtain ⟨name, directory, hfault, hname, hwalk, hdirectory, hshape, hsaved⟩ := save_cases h
  rw [not_or, not_or] at hshape
  obtain ⟨hlength, hdot, hup⟩ := hshape
  obtain ⟨hall, hsplit, hempty⟩ := dropLast_concat_name hname hlength
  obtain ⟨hlimit, hnode, htree⟩ := saveIn_eq_ok hsaved
  refine ⟨directory ++ [name], ?_, hnode, htree⟩
  rw [hall] at hwalk
  have htrivial : Path.isTrivial name = false := by simp [Path.isTrivial, hempty, hdot]
  have hpath : t.walk (start current path) (Path.segments path) = .ok (directory ++ [name]) := by
    rw [← hsplit, walk_append, hwalk]
    exact walk_name hdirectory htrivial hup hlimit
  simp [place?, hfault, hpath, Except.toOption]

theorem look_save_self (h : t.save current path content = .ok tree) :
    tree.look current path = .file content := by
  obtain ⟨place, hplace, hnode, rfl⟩ := save_eq_ok h
  rw [look_of_place ((place?_put hnode content current path).trans hplace),
    node?_put_self (ne_nil_of_not_directory hnode)]
  rfl

theorem look_save_other (h : t.save current path content = .ok tree) {other : String}
    (hother : t.place? current other ≠ t.place? current path) :
    (t.look current other).Alike (tree.look current other) := by
  obtain ⟨place, hplace, hnode, rfl⟩ := save_eq_ok h
  have hkeep := place?_put hnode content current other
  cases hq : t.place? current other with
  | none => exact .inr ⟨look_of_no_place hq, look_of_no_place (hkeep.trans hq)⟩
  | some q =>
      have hne : q ≠ place := by
        rintro rfl
        exact hother (hq.trans hplace.symm)
      refine .inl ?_
      rw [look_of_place hq, look_of_place (hkeep.trans hq), node?_put_of_ne hne]

end Saving

end FileTree

end ErrorFree
