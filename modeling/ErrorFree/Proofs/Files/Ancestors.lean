import ErrorFree.Files.Path
import Mathlib.Data.List.DropRight

/-!
# Ancestors of a path

**Components.**  `components` are the segments of a path that count: all but the empty ones and `.`,
except a `.` at the start of a relative path.

**Parents.**  `components_of_parent?`: the parent of a path has all components but the last, and is
absolute if the path is; a path without components has no parent (`parent?_eq_none_iff`).  The text
of a parent is put together again from its segments, which are found in it as they were
(`segments_ofSegments`).

**Names.**  `components_join`: the path of a name in a directory has that name as one component more.

**Results.**
* `getElem?_ancestors_succ`: the ancestors of a path are the path, its parent, the parent of that and
  so on as long as there is one.
* `length_ancestors`, `components_of_ancestor`: there is one for each number of components left out.
* `isPrefix_of_ancestor`: an ancestor is written as the path begins.
* `getLast?_ancestors`: the last ancestor is the root or, of a relative path, the empty path.
-/

namespace ErrorFree

namespace Path

section Segments

theorem splitSlashes_ne_nil (text : List Char) : splitSlashes text ≠ [] := by
  fun_cases splitSlashes text <;> simp

theorem splitSlashes_eq_splitOn (text : List Char) : splitSlashes text = text.splitOn '/' := by
  induction text with
  | nil => rfl
  | cons c rest ih =>
      obtain ⟨part, parts, hparts⟩ := List.exists_cons_of_ne_nil (splitSlashes_ne_nil rest)
      rw [ih, List.splitOn] at hparts
      rw [splitSlashes, ih, List.splitOn, List.splitOn, List.splitOnP_cons_eq_if_modifyHead, hparts]
      simp

theorem slash_notMem_of_mem {part text : List Char} (h : part ∈ splitSlashes text) :
    '/' ∉ part := by
  fun_induction splitSlashes text generalizing part with
  | case1 => simp_all
  | case2 rest ih =>
      rcases List.mem_cons.mp h with rfl | h
      · exact List.not_mem_nil
      · exact ih h
  | case3 c rest hc hnil ih => exact absurd hnil (splitSlashes_ne_nil rest)
  | case4 c rest hc first more hparts ih =>
      rw [hparts] at ih
      rcases List.mem_cons.mp h with rfl | h
      · rw [List.mem_cons, not_or]
        exact ⟨Ne.symm hc, ih List.mem_cons_self⟩
      · exact ih (List.mem_cons_of_mem first h)

/-- An empty part at the start comes from a slash there, or there is nothing at all. -/
theorem head?_of_empty_part {text : List Char} (h : (splitSlashes text).head? = some []) :
    text = [] ∨ text.head? = some '/' := by
  cases text with
  | nil => exact Or.inl rfl
  | cons c rest =>
      by_cases hc : c = '/'
      · rw [hc]
        exact Or.inr rfl
      · obtain ⟨part, parts, hparts⟩ := List.exists_cons_of_ne_nil (splitSlashes_ne_nil rest)
        simp [splitSlashes, hc, hparts] at h

/-- Segments that can stand in a path: without slashes, and not empty at the start of a relative
path. -/
structure Spelled (absolute : Bool) (segs : List String) : Prop where
  no_slash : ∀ segment ∈ segs, '/' ∉ segment.toList
  head : absolute = false → segs.head? ≠ some ""

variable {absolute : Bool} {segs : List String} {path : String}

theorem toList_ofSegments (absolute : Bool) (segs : List String) :
    (ofSegments absolute segs).toList =
      (if absolute then ['/'] else []) ++ ['/'].intercalate (segs.map String.toList) := by
  rw [ofSegments, String.toList_append, String.toList_intercalate]
  cases absolute <;> rfl

theorem isAbsolute_ofSegments (h : Spelled absolute segs) :
    isAbsolute (ofSegments absolute segs) = absolute := by
  rw [isAbsolute, toList_ofSegments]
  cases absolute with
  | true => rfl
  | false =>
      cases segs with
      | nil => rfl
      | cons first rest =>
          have hfirst : first.toList ≠ [] := by
            simpa using h.head rfl
          obtain ⟨c, chars, hchars⟩ := List.exists_cons_of_ne_nil hfirst
          have hc : c ≠ '/' := by
            rintro rfl
            exact h.no_slash first List.mem_cons_self (hchars ▸ List.mem_cons_self)
          cases rest <;> simp [hchars, hc]

theorem segments_ofSegments (h : Spelled absolute segs) (hne : segs ≠ []) :
    segments (ofSegments absolute segs) = segs := by
  have hbody : (if isAbsolute (ofSegments absolute segs) then (ofSegments absolute segs).toList.tail
      else (ofSegments absolute segs).toList) = ['/'].intercalate (segs.map String.toList) := by
    rw [isAbsolute_ofSegments h, toList_ofSegments]
    cases absolute <;> rfl
  rw [segments, hbody, segmentsOf, splitSlashes_eq_splitOn, List.splitOn_intercalate]
  · simp
  · intro text htext
    obtain ⟨segment, hsegment, rfl⟩ := List.mem_map.mp htext
    exact h.no_slash segment hsegment
  · simpa using hne

theorem spelled_segments (h : path ≠ "") : Spelled (isAbsolute path) (segments path) where
  no_slash := by
    intro segment hsegment
    obtain ⟨part, hpart, rfl⟩ := List.mem_map.mp hsegment
    rw [String.toList_ofList]
    exact slash_notMem_of_mem hpart
  head := by
    intro hrelative hhead
    rw [segments, hrelative, segmentsOf, List.head?_map] at hhead
    obtain ⟨part, hpart, hempty⟩ := Option.map_eq_some_iff.mp hhead
    rw [String.ofList_eq_empty_iff] at hempty
    rw [hempty] at hpart
    rcases head?_of_empty_part hpart with hnil | hslash
    · exact h (String.toList_eq_nil_iff.mp hnil)
    · rw [isAbsolute, decide_eq_false_iff_not] at hrelative
      exact hrelative hslash

theorem ofSegments_segments (path : String) :
    ofSegments (isAbsolute path) (segments path) = path := by
  have htexts : (segments path).map String.toList =
      splitSlashes (if isAbsolute path then path.toList.tail else path.toList) := by
    rw [segments, segmentsOf, List.map_map]
    simp
  rw [← String.toList_inj, toList_ofSegments, htexts, splitSlashes_eq_splitOn,
    List.intercalate_splitOn]
  cases habsolute : isAbsolute path with
  | false => rfl
  | true =>
      rw [isAbsolute, decide_eq_true_eq] at habsolute
      obtain ⟨rest, hrest⟩ := List.head?_eq_some_iff.mp habsolute
      rw [hrest]
      rfl

theorem intercalate_isPrefix {parts texts : List (List Char)} (h : parts <+: texts) :
    ['/'].intercalate parts <+: ['/'].intercalate texts := by
  induction parts generalizing texts with
  | nil => exact List.nil_prefix
  | cons part parts ih =>
      obtain ⟨rest, rfl⟩ := h
      cases parts with
      | nil =>
          cases rest with
          | nil => exact List.prefix_rfl
          | cons next rest =>
              rw [List.intercalate_singleton, List.singleton_append, List.intercalate_cons_cons,
                List.append_assoc]
              exact List.prefix_append part _
      | cons next parts =>
          rw [List.cons_append, List.cons_append, List.intercalate_cons_cons,
            List.intercalate_cons_cons, List.prefix_append_right_inj]
          exact ih (List.prefix_append (next :: parts) rest)

/-- Fewer segments are the beginning of the text. -/
theorem ofSegments_isPrefix {part : List String} (h : part <+: segments path) :
    (ofSegments (isAbsolute path) part).toList <+: path.toList := by
  nth_rewrite 2 [← ofSegments_segments path]
  rw [toList_ofSegments, toList_ofSegments, List.prefix_append_right_inj]
  exact intercalate_isPrefix (h.map String.toList)

end Segments

section Components

/-- The segments that count. -/
def countedSegments (absolute : Bool) : List String → List String
  | [] => []
  | first :: rest =>
      (if first = "" ∨ absolute = true ∧ first = "." then [] else [first]) ++
        rest.filter fun segment => !isTrivial segment

/-- The segments of a path that count. -/
def components (path : String) : List String :=
  countedSegments (isAbsolute path) (segments path)

theorem trimEnd_cons (first : String) (rest : List String) :
    trimEnd absolute (first :: rest) =
      if rest.rdropWhile isTrivial = [] ∧ (first = "" ∨ absolute = true ∧ first = ".") then []
      else first :: rest.rdropWhile isTrivial := rfl

theorem filter_rdropWhile (p : String → Bool) (l : List String) :
    (l.rdropWhile p).filter (fun segment => !p segment) = l.filter fun segment => !p segment := by
  induction l using List.reverseRecOn with
  | nil => rfl
  | append_singleton l x ih =>
      by_cases hx : p x = true
      · rw [List.rdropWhile_concat_pos p l x hx, ih]
        simp [hx]
      · rw [List.rdropWhile_concat_neg p l x hx]

/-- What is left out at the end does not count. -/
theorem countedSegments_trimEnd (absolute : Bool) (segs : List String) :
    countedSegments absolute (trimEnd absolute segs) = countedSegments absolute segs := by
  cases segs with
  | nil => rfl
  | cons first rest =>
      rw [trimEnd_cons]
      split
      · rename_i hnone
        have hrest := filter_rdropWhile isTrivial rest
        rw [hnone.1] at hrest
        simp [countedSegments, hnone.2, ← hrest]
      · simp only [countedSegments, filter_rdropWhile]

theorem trimEnd_eq_nil_iff (absolute : Bool) (segs : List String) :
    trimEnd absolute segs = [] ↔ countedSegments absolute segs = [] := by
  constructor
  · intro hnil
    rw [← countedSegments_trimEnd, hnil]
    rfl
  · intro hnone
    cases segs with
    | nil => rfl
    | cons first rest =>
        obtain ⟨hfirst, hrest⟩ := List.append_eq_nil_iff.mp hnone
        rw [trimEnd_cons, if_pos]
        constructor
        · rw [List.rdropWhile_eq_nil_iff]
          simpa using List.filter_eq_nil_iff.mp hrest
        · by_contra hcounts
          rw [if_neg hcounts] at hfirst
          cases hfirst

/-- The last segment that is left counts. -/
theorem countedSegments_dropLast (absolute : Bool) (segs : List String) :
    countedSegments absolute (trimEnd absolute segs).dropLast =
      (countedSegments absolute segs).dropLast := by
  rw [← countedSegments_trimEnd absolute segs]
  cases segs with
  | nil => rfl
  | cons first rest =>
      rw [trimEnd_cons]
      split
      · rfl
      · rename_i hcounts
        by_cases hnil : rest.rdropWhile isTrivial = []
        · have hfirst : ¬ (first = "" ∨ absolute = true ∧ first = ".") := fun h => hcounts ⟨hnil, h⟩
          simp [hnil, countedSegments, hfirst]
        · have hlast := List.rdropWhile_last_not isTrivial rest hnil
          obtain ⟨init, last, hconcat⟩ :
              ∃ init last, rest.rdropWhile isTrivial = init ++ [last] :=
            ⟨_, _, (List.dropLast_concat_getLast hnil).symm⟩
          simp only [hconcat, List.getLast_append_singleton] at hlast
          rw [hconcat, ← List.cons_append, List.dropLast_concat]
          simp [countedSegments, hlast, List.filter_append, ← List.append_assoc]

theorem Spelled.mono {part : List String} (h : Spelled absolute segs) (hpart : part <+: segs) :
    Spelled absolute part where
  no_slash := fun segment hsegment => h.no_slash segment (hpart.subset hsegment)
  head := by
    intro hrelative hempty
    obtain ⟨rest, rfl⟩ := hpart
    apply h.head hrelative
    rw [List.head?_append, hempty]
    rfl

theorem trimEnd_isPrefix (absolute : Bool) (segs : List String) :
    trimEnd absolute segs <+: segs := by
  cases segs with
  | nil => exact List.nil_prefix
  | cons first rest =>
      rw [trimEnd_cons]
      split
      · exact List.nil_prefix
      · rw [List.cons_prefix_cons]
        exact ⟨rfl, List.rdropWhile_prefix isTrivial rest⟩

theorem components_ofSegments (h : Spelled absolute segs) :
    components (ofSegments absolute segs) = countedSegments absolute segs := by
  by_cases hnil : segs = []
  · rw [hnil]
    cases absolute <;> decide
  · rw [components, isAbsolute_ofSegments h, segments_ofSegments h hnil]

end Components

section Parents

variable {parent : String}

theorem parent?_eq_none_iff : parent? path = none ↔ components path = [] := by
  rw [components, ← trimEnd_eq_nil_iff, parent?]
  cases trimEnd (isAbsolute path) (segments path) <;> simp

/-- The segments of a path that are left in its parent. -/
def parentSegments (path : String) : List String :=
  trimEnd (isAbsolute path) (trimEnd (isAbsolute path) (segments path)).dropLast

theorem parentSegments_isPrefix (path : String) : parentSegments path <+: segments path :=
  ((trimEnd_isPrefix _ _).trans (List.dropLast_prefix _)).trans (trimEnd_isPrefix _ _)

theorem eq_of_parent? (h : parent? path = some parent) :
    parent = ofSegments (isAbsolute path) (parentSegments path) := by
  rw [parent?] at h
  rw [parentSegments]
  cases htrimmed : trimEnd (isAbsolute path) (segments path) with
  | nil =>
      rw [htrimmed] at h
      cases h
  | cons first rest =>
      rw [htrimmed] at h
      exact (Option.some.inj h).symm

theorem components_of_parent? (h : parent? path = some parent) :
    isAbsolute parent = isAbsolute path ∧ components parent = (components path).dropLast := by
  have hpath : path ≠ "" := by
    rintro rfl
    cases h
  have hspelled : Spelled (isAbsolute path) (parentSegments path) :=
    (spelled_segments hpath).mono (parentSegments_isPrefix path)
  rw [eq_of_parent? h, isAbsolute_ofSegments hspelled, components_ofSegments hspelled,
    parentSegments, countedSegments_trimEnd, countedSegments_dropLast]
  exact ⟨rfl, rfl⟩

/-- A parent without components is the root or the empty path, in its shortest spelling. -/
theorem eq_root_of_parent? (h : parent? path = some parent) (hnone : components parent = []) :
    parent = ofSegments (isAbsolute path) [] := by
  rw [(components_of_parent? h).2, components, ← countedSegments_dropLast] at hnone
  rw [eq_of_parent? h, parentSegments, (trimEnd_eq_nil_iff _ _).mpr hnone]

/-- Only the empty path is relative and has no components. -/
theorem eq_empty_of_components (hrelative : isAbsolute path = false) (h : components path = []) :
    path = "" := by
  by_contra hpath
  have hhead := (spelled_segments hpath).head hrelative
  rw [components, hrelative] at h
  cases hsegments : segments path with
  | nil => simp [segments, segmentsOf, splitSlashes_ne_nil] at hsegments
  | cons first rest =>
      rw [hsegments] at h hhead
      have hfirst : first ≠ "" := by simpa using hhead
      simp [countedSegments, hfirst] at h

end Parents

section Ancestors

variable {fuel : Nat}

theorem length_components_le (path : String) : (components path).length ≤ (segments path).length := by
  rw [components]
  cases segments path with
  | nil => exact Nat.le_refl 0
  | cons first rest =>
      have hrest := List.length_filter_le (fun segment => !isTrivial segment) rest
      rw [countedSegments, List.length_append, List.length_cons]
      split
      · rw [List.length_nil]
        omega
      · rw [List.length_singleton]
        omega

theorem length_ancestorsUpTo (h : (components path).length ≤ fuel) :
    (ancestorsUpTo fuel path).length = (components path).length + 1 := by
  induction fuel generalizing path with
  | zero =>
      rw [Nat.le_zero.mp h]
      rfl
  | succ fuel ih =>
      rw [ancestorsUpTo]
      cases hparent : parent? path with
      | none =>
          rw [parent?_eq_none_iff.mp hparent]
          rfl
      | some parent =>
          have hcomponents := (components_of_parent? hparent).2
          have hpos : components path ≠ [] := by
            intro hnil
            rw [parent?_eq_none_iff.mpr hnil] at hparent
            cases hparent
          have hlength := List.length_pos_iff.mpr hpos
          have hless : (components parent).length = (components path).length - 1 := by
            rw [hcomponents, List.length_dropLast]
          rw [List.length_cons, ih (by omega)]
          omega

theorem getElem?_ancestorsUpTo_zero (fuel : Nat) (path : String) :
    (ancestorsUpTo fuel path)[0]? = some path := by
  cases fuel <;> rfl

/-- Fuel for all components is enough to go on until there is no parent. -/
theorem getElem?_ancestorsUpTo_succ (h : (components path).length ≤ fuel) (n : Nat) :
    (ancestorsUpTo fuel path)[n + 1]? = (ancestorsUpTo fuel path)[n]?.bind parent? := by
  induction fuel generalizing path n with
  | zero =>
      have hnone : parent? path = none :=
        parent?_eq_none_iff.mpr (List.length_eq_zero_iff.mp (Nat.le_zero.mp h))
      cases n <;> simp [ancestorsUpTo, hnone]
  | succ fuel ih =>
      rw [ancestorsUpTo]
      cases hparent : parent? path with
      | none => cases n <;> simp [hparent]
      | some parent =>
          cases n with
          | zero => simp [hparent, getElem?_ancestorsUpTo_zero]
          | succ n =>
              have hless : (components parent).length ≤ fuel := by
                rw [(components_of_parent? hparent).2, List.length_dropLast]
                omega
              exact ih hless n

variable (path)

theorem length_ancestors : (ancestors path).length = (components path).length + 1 :=
  length_ancestorsUpTo (length_components_le path)

theorem getElem?_ancestors_zero : (ancestors path)[0]? = some path :=
  getElem?_ancestorsUpTo_zero _ path

theorem getElem?_ancestors_succ (n : Nat) :
    (ancestors path)[n + 1]? = (ancestors path)[n]?.bind parent? :=
  getElem?_ancestorsUpTo_succ (length_components_le path) n

variable {path}

/-- Each ancestor leaves out one more component. -/
theorem components_of_ancestor {n : Nat} {ancestor : String}
    (h : (ancestors path)[n]? = some ancestor) :
    isAbsolute ancestor = isAbsolute path ∧
      components ancestor = (components path).take ((components path).length - n) := by
  induction n generalizing ancestor with
  | zero =>
      rw [getElem?_ancestors_zero] at h
      obtain rfl := Option.some.inj h
      rw [Nat.sub_zero, List.take_length]
      exact ⟨rfl, rfl⟩
  | succ n ih =>
      rw [getElem?_ancestors_succ] at h
      obtain ⟨child, hchild, hparent⟩ := Option.bind_eq_some_iff.mp h
      obtain ⟨habsolute, hcomponents⟩ := ih hchild
      obtain ⟨hsame, hdropped⟩ := components_of_parent? hparent
      rw [hsame, habsolute, hdropped, hcomponents, List.dropLast_eq_take, List.take_take,
        List.length_take]
      refine ⟨rfl, ?_⟩
      congr 1
      omega

/-- An ancestor is written as the path begins. -/
theorem isPrefix_of_ancestor {n : Nat} {ancestor : String}
    (h : (ancestors path)[n]? = some ancestor) : ancestor.toList <+: path.toList := by
  induction n generalizing ancestor with
  | zero =>
      rw [getElem?_ancestors_zero] at h
      obtain rfl := Option.some.inj h
      exact List.prefix_rfl
  | succ n ih =>
      rw [getElem?_ancestors_succ] at h
      obtain ⟨child, hchild, hparent⟩ := Option.bind_eq_some_iff.mp h
      rw [eq_of_parent? hparent]
      exact (ofSegments_isPrefix (parentSegments_isPrefix child)).trans (ih hchild)

/-- The last ancestor of a path is the root or, of a relative path, the empty path; a path without
components is its only ancestor. -/
theorem getLast?_ancestors (path : String) :
    (ancestors path).getLast? =
      some (if components path = [] then path else ofSegments (isAbsolute path) []) := by
  have hlength := length_ancestors path
  rw [List.getLast?_eq_getElem?, hlength, Nat.add_sub_cancel]
  by_cases hnone : components path = []
  · rw [if_pos hnone, hnone, List.length_nil, getElem?_ancestors_zero]
  · have hpos : (components path).length - 1 + 1 = (components path).length :=
      Nat.sub_add_cancel (List.length_pos_iff.mpr hnone)
    obtain ⟨last, hlast⟩ : ∃ last, (ancestors path)[(components path).length]? = some last := by
      rw [← Option.isSome_iff_exists, isSome_getElem?]
      omega
    obtain ⟨-, hcomponents⟩ := components_of_ancestor hlast
    rw [Nat.sub_self, List.take_zero] at hcomponents
    rw [if_neg hnone, hlast]
    rw [← hpos, getElem?_ancestors_succ] at hlast
    obtain ⟨child, hchild, hparent⟩ := Option.bind_eq_some_iff.mp hlast
    rw [eq_root_of_parent? hparent hcomponents, (components_of_ancestor hchild).1]

end Ancestors

section Joining

variable {directory name : String}

theorem isAbsolute_append (h : directory ≠ "") (text : String) :
    isAbsolute (directory ++ text) = isAbsolute directory := by
  obtain ⟨c, chars, hchars⟩ :=
    List.exists_cons_of_ne_nil fun hnil => h (String.toList_eq_nil_iff.mp hnil)
  simp [isAbsolute, hchars]

theorem segments_slash (h : directory ≠ "") (hname : '/' ∉ name.toList) :
    segments (directory ++ "/" ++ name) = segments directory ++ [name] := by
  have hsplit : ∀ text, segmentsOf (text ++ '/' :: name.toList) = segmentsOf text ++ [name] := by
    intro text
    rw [segmentsOf, splitSlashes_eq_splitOn, List.splitOn_append_cons_self,
      List.splitOn_eq_singleton hname, List.map_append, ← splitSlashes_eq_splitOn]
    simp [segmentsOf]
  obtain ⟨c, chars, hchars⟩ :=
    List.exists_cons_of_ne_nil fun hnil => h (String.toList_eq_nil_iff.mp hnil)
  rw [segments, segments, String.append_assoc, isAbsolute_append h, ← hsplit]
  cases isAbsolute directory <;> simp [hchars]

/-- A name behind a slash is one component more, if it counts. -/
theorem components_slash (h : directory ≠ "") (hname : '/' ∉ name.toList) :
    components (directory ++ "/" ++ name) =
      components directory ++ if isTrivial name then [] else [name] := by
  rw [components, components, segments_slash h hname, String.append_assoc, isAbsolute_append h]
  cases hsegments : segments directory with
  | nil => simp [segments, segmentsOf, splitSlashes_ne_nil] at hsegments
  | cons first rest =>
      rw [List.cons_append, countedSegments, countedSegments, List.filter_append, List.append_assoc]
      cases htrivial : isTrivial name <;> simp [htrivial]

/-- A name alone, or behind the slash of the root, is the only component. -/
theorem components_name (hname : '/' ∉ name.toList) (hcounts : isTrivial name = false)
    (absolute : Bool) :
    isAbsolute ((if absolute then "/" else "") ++ name) = absolute ∧
      components ((if absolute then "/" else "") ++ name) = [name] := by
  have hnames : name ≠ "" ∧ name ≠ "." := by simpa [isTrivial] using hcounts
  have hspelled : Spelled absolute [name] := by
    constructor
    · intro segment hsegment
      rwa [List.mem_singleton.mp hsegment]
    · intro _
      simpa using hnames.1
  have htext : (if absolute then "/" else "") ++ name = ofSegments absolute [name] := by
    simp [ofSegments]
  rw [htext, isAbsolute_ofSegments hspelled, components_ofSegments hspelled]
  simp [countedSegments, hnames]

/-- The path of a name in a directory has that name as one component more. -/
theorem components_join (hname : '/' ∉ name.toList) (hcounts : isTrivial name = false)
    (directory : String) :
    isAbsolute (join directory name) = isAbsolute directory ∧
      components (join directory name) = components directory ++ [name] := by
  have hbehind : ∀ front : String, front ≠ "" →
      isAbsolute (front ++ "/" ++ name) = isAbsolute front ∧
        components (front ++ "/" ++ name) = components front ++ [name] := by
    intro front hne
    rw [components_slash hne hname, hcounts, String.append_assoc, isAbsolute_append hne]
    exact ⟨rfl, rfl⟩
  rw [join]
  split
  · rename_i hempty
    rw [hempty, ← String.empty_append (s := name)]
    exact components_name hname hcounts false
  split
  · -- The directory ends in a slash, which is the root or stands behind another path.
    rename_i hempty hslash
    obtain ⟨front, hfront⟩ := List.getLast?_eq_some_iff.mp hslash
    have hdirectory : directory = String.ofList front ++ "/" := by
      rw [← String.toList_inj, hfront]
      simp
    by_cases hroot : front = []
    · rw [hdirectory, hroot]
      exact components_name hname hcounts true
    · have hne : String.ofList front ≠ "" := by rwa [ne_eq, String.ofList_eq_empty_iff]
      have hsame : components directory = components (String.ofList front) := by
        rw [hdirectory, ← String.append_empty (s := String.ofList front ++ "/"),
          components_slash hne (by simp)]
        exact List.append_nil _
      have habsolute : isAbsolute directory = isAbsolute (String.ofList front) := by
        rw [hdirectory, isAbsolute_append hne]
      rw [hsame, habsolute, hdirectory]
      exact hbehind _ hne
  · rename_i hempty _
    exact hbehind directory hempty

end Joining

end Path

end ErrorFree
