import ErrorFree.Proofs.Config.Faults
import ErrorFree.Proofs.Text.Utf8
import ErrorFree.Proofs.Toml.Tables

/-!
# Configuration files as they are written

**Writing.**  A section is a table, and a field that is given is a line of it; a field that is not
given has no line.  `Arranges` leaves the order of the tables open, and the order of the lines in
each; `Written` leaves empty lines and the ends of lines open.

**Reading.**  A field is found by its key, wherever its line stands (`lookup_of_perm_given`), so the
entries of such tables are the configuration again (`Arranges.file_eq`).  A key that is no field of
the table it is in makes them no configuration (`Schema.file_eq_none`).

**Result.**  `load_rendering`: a configuration is loaded from what is written for it, unless a field
is zero that must not be; with an unknown key, or a key twice in a section, nothing is loaded.
-/

namespace ErrorFree

open Toml (Literal Line IsBare Ended Written Holds opened tableLines tableEntries settingEntries)

section Given

variable {α : Type} {fields : List (String × Option α)} {settings : List (String × α)} {key : String}

/-- The fields that are given, with what they are given. -/
def given (fields : List (String × Option α)) : List (String × α) :=
  fields.filterMap fun field => field.2.map fun a => (field.1, a)

theorem mem_given {a : α} : (key, a) ∈ given fields ↔ (key, some a) ∈ fields := by
  simp only [given, List.mem_filterMap, Option.map_eq_some_iff, Prod.mk.injEq]
  constructor
  · rintro ⟨⟨name, _⟩, hmem, b, rfl, rfl, rfl⟩
    exact hmem
  · exact fun hmem => ⟨_, hmem, a, rfl, rfl, rfl⟩

theorem keys_given_sublist (fields : List (String × Option α)) :
    ((given fields).map Prod.fst).Sublist (fields.map Prod.fst) := by
  induction fields with
  | nil => exact List.Sublist.slnil
  | cons field fields ih =>
      obtain ⟨name, _ | a⟩ := field
      · exact ih.cons name
      · exact ih.cons_cons name

theorem lookup_eq_some_iff_mem {l : List (String × α)} {a : α} (h : (l.map Prod.fst).Nodup) :
    l.lookup key = some a ↔ (key, a) ∈ l := by
  induction l with
  | nil => simp
  | cons entry l ih =>
      obtain ⟨name, b⟩ := entry
      rw [List.map_cons, List.nodup_cons] at h
      rw [List.lookup_cons, List.mem_cons]
      by_cases hkey : key = name
      · subst hkey
        have hnot : (key, a) ∉ l := fun hmem => h.1 (List.mem_map.mpr ⟨_, hmem, rfl⟩)
        simp [hnot, eq_comm]
      · simp [beq_eq_false_iff_ne.mpr hkey, hkey, ih h.2]

/-- Given fields are found in any order. -/
theorem lookup_of_perm_given (hperm : settings.Perm (given fields))
    (hnodup : (fields.map Prod.fst).Nodup) {value : Option α} (hfield : (key, value) ∈ fields) :
    settings.lookup key = value := by
  have hgiven := hnodup.sublist (keys_given_sublist fields)
  have hsettings : (settings.map Prod.fst).Nodup := (hperm.map Prod.fst).nodup_iff.mpr hgiven
  apply Option.ext
  intro a
  rw [lookup_eq_some_iff_mem hsettings, hperm.mem_iff, mem_given]
  constructor
  · intro hmem
    have hsome := (lookup_eq_some_iff_mem hnodup).mpr hmem
    rw [(lookup_eq_some_iff_mem hnodup).mpr hfield] at hsome
    exact Option.some.inj hsome
  · rintro rfl
    exact hfield

end Given

section Writing

/-- The fields of the section about the machine, as they are written. -/
def RuntimeSection.fields (sec : RuntimeSection) : List (String × Option Literal) :=
  [("stack_capacity", sec.stackCapacity.map .natural),
    ("heap_capacity", sec.heapCapacity.map .natural),
    ("max_cycles", sec.maxCycles.map .natural),
    ("seed", sec.seed.map .natural),
    ("auto_zero", sec.autoZero.map .boolean)]

theorem RuntimeSection.keys_fields (sec : RuntimeSection) :
    sec.fields.map Prod.fst = Schema.runtimeFields :=
  rfl

/-- The fields of the section about what is told, as they are written. -/
def DisplaySection.fields (sec : DisplaySection) : List (String × Option Literal) :=
  [("progress", sec.progress.map .boolean), ("summary", sec.summary.map .boolean)]

theorem DisplaySection.keys_fields (sec : DisplaySection) :
    sec.fields.map Prod.fst = Schema.displayFields :=
  rfl

namespace ConfigFile

/-- The settings in the section of a name; there are none if the section is not there. -/
def settings (c : ConfigFile) : String → Option (List (String × Literal))
  | "runtime" => c.runtime.map fun sec => given sec.fields
  | "display" => c.display.map fun sec => given sec.fields
  | _ => none

/-- The numbers of a file are in the range of integers. -/
def InRange (c : ConfigFile) : Prop :=
  ∀ field ∈ [ConfigField.stackCapacity, .heapCapacity, .maxCycles, .seed],
    ∀ n ∈ field.get c, n < Nat.pow 2 63

/-- Tables for the sections of a file, one for each that is there, in any order, with the settings of
each in any order. -/
structure Arranges (c : ConfigFile) (tables : List (String × List (String × Literal))) : Prop where
  names : (tables.map Prod.fst).Nodup
  settings : ∀ name, Option.Rel List.Perm (tables.lookup name) (c.settings name)

end ConfigFile

end Writing

section Reading

namespace Schema

variable {α : Type} {key : String} {names : List String} {entries root : Toml.Entries}
  {settings : List (String × Literal)} {fields : List (String × Option Literal)}

/-- The fields of a table: the sections in the root, nothing in a table that is no section. -/
def fieldsOf : Option String → List String
  | none => ["runtime", "display"]
  | some "runtime" => runtimeFields
  | some "display" => displayFields
  | some _ => []

theorem onlyKnown_iff : onlyKnown names entries = true ↔ ∀ entry ∈ entries, entry.1 ∈ names := by
  simp [onlyKnown]

theorem onlyKnown_eq_false (hkey : (entries.lookup key).isSome) (hnames : key ∉ names) :
    onlyKnown names entries = false := by
  rw [← Bool.not_eq_true, onlyKnown_iff]
  intro hall
  obtain ⟨entry, hentry, hname⟩ := List.lookup_isSome_iff.mp hkey
  rw [beq_iff_eq] at hname
  exact hnames (hname ▸ hall entry hentry)

theorem onlyKnown_settings (hperm : settings.Perm (given fields)) :
    onlyKnown (fields.map Prod.fst) (settingEntries settings) = true := by
  rw [onlyKnown_iff]
  intro entry hentry
  obtain ⟨setting, hsetting, rfl⟩ := List.mem_map.mp hentry
  exact (keys_given_sublist fields).subset (List.mem_map_of_mem (hperm.mem_iff.mp hsetting))

/-- A field is read back from its line. -/
theorem optional_settings {read : Toml.Value → Option α} {literal : α → Literal} {value : Option α}
    (hread : ∀ a, read (literal a).value = some a) (hperm : settings.Perm (given fields))
    (hnodup : (fields.map Prod.fst).Nodup) (hfield : (key, value.map literal) ∈ fields) :
    optional read (settingEntries settings) key = some value := by
  unfold optional
  rw [Toml.lookup_settingEntries, lookup_of_perm_given hperm hnodup hfield]
  cases value with
  | none => rfl
  | some a =>
      show (read (literal a).value).map some = some (some a)
      rw [hread]
      rfl

theorem natural_literal (n : Nat) : natural (Literal.natural n).value = some n := by
  simp [natural, Literal.value]

theorem flag_literal (b : Bool) : flag (Literal.boolean b).value = some b := rfl

theorem runtime_settings {sec : RuntimeSection} (hperm : settings.Perm (given sec.fields))
    (origin : Toml.Origin) : runtime (.table origin (settingEntries settings)) = some sec := by
  have hnodup : (sec.fields.map Prod.fst).Nodup := by
    rw [sec.keys_fields]
    decide
  have hknown : onlyKnown runtimeFields (settingEntries settings) = true := onlyKnown_settings hperm
  have hstack : optional natural (settingEntries settings) "stack_capacity" = some sec.stackCapacity :=
    optional_settings natural_literal hperm hnodup (by simp [RuntimeSection.fields])
  have hheap : optional natural (settingEntries settings) "heap_capacity" = some sec.heapCapacity :=
    optional_settings natural_literal hperm hnodup (by simp [RuntimeSection.fields])
  have hcycles : optional natural (settingEntries settings) "max_cycles" = some sec.maxCycles :=
    optional_settings natural_literal hperm hnodup (by simp [RuntimeSection.fields])
  have hseed : optional natural (settingEntries settings) "seed" = some sec.seed :=
    optional_settings natural_literal hperm hnodup (by simp [RuntimeSection.fields])
  have hzero : optional flag (settingEntries settings) "auto_zero" = some sec.autoZero :=
    optional_settings flag_literal hperm hnodup (by simp [RuntimeSection.fields])
  simp only [runtime, hknown, hstack, hheap, hcycles, hseed, hzero]
  rfl

theorem display_settings {sec : DisplaySection} (hperm : settings.Perm (given sec.fields))
    (origin : Toml.Origin) : display (.table origin (settingEntries settings)) = some sec := by
  have hnodup : (sec.fields.map Prod.fst).Nodup := by
    rw [sec.keys_fields]
    decide
  have hknown : onlyKnown displayFields (settingEntries settings) = true := onlyKnown_settings hperm
  have hprogress : optional flag (settingEntries settings) "progress" = some sec.progress :=
    optional_settings flag_literal hperm hnodup (by simp [DisplaySection.fields])
  have hsummary : optional flag (settingEntries settings) "summary" = some sec.summary :=
    optional_settings flag_literal hperm hnodup (by simp [DisplaySection.fields])
  simp only [display, hknown, hprogress, hsummary]
  rfl

/-- A section is read back from its table, and is left out without one. -/
theorem optional_tables {read : Toml.Value → Option α}
    {tables : List (String × List (String × Literal))} {name : String} {value : Option α}
    {fields : α → List (String × Option Literal)}
    (hread : ∀ sec settings, settings.Perm (given (fields sec)) →
      read (.table .header (settingEntries settings)) = some sec)
    (htable : Option.Rel List.Perm (tables.lookup name) (value.map fun sec => given (fields sec))) :
    optional read (tableEntries tables) name = some value := by
  unfold optional
  rw [Toml.lookup_tableEntries]
  cases value with
  | none =>
      rw [Option.map_none] at htable
      generalize tables.lookup name = found at htable
      cases htable
      rfl
  | some sec =>
      rw [Option.map_some] at htable
      generalize tables.lookup name = found at htable
      cases htable with
      | some hperm =>
          show (read (.table .header _)).map some = some (some sec)
          rw [hread sec _ hperm]
          rfl

theorem runtime_eq_none {origin : Toml.Origin} (hkey : (entries.lookup key).isSome)
    (hfields : key ∉ runtimeFields) : runtime (.table origin entries) = none := by
  simp only [runtime, onlyKnown_eq_false hkey hfields]
  rfl

theorem display_eq_none {origin : Toml.Origin} (hkey : (entries.lookup key).isSome)
    (hfields : key ∉ displayFields) : display (.table origin entries) = none := by
  simp only [display, onlyKnown_eq_false hkey hfields]
  rfl

theorem file_eq_none_of_root (hkey : (root.lookup key).isSome) (hfields : key ∉ fieldsOf none) :
    file root = none := by
  have hknown : onlyKnown ["runtime", "display"] root = false := onlyKnown_eq_false hkey hfields
  simp only [file, hknown]
  rfl

/-- A key that is no field of its table is refused. -/
theorem file_eq_none {table : Option String} (hkey : Holds root table key)
    (hfields : key ∉ fieldsOf table) : file root = none := by
  cases table with
  | none => exact file_eq_none_of_root hkey hfields
  | some name =>
      obtain ⟨origin, inner, htable, hinner⟩ := hkey
      by_cases hruntime : name = "runtime"
      · subst hruntime
        have hnone : optional runtime root "runtime" = none := by
          simp only [optional, htable, runtime_eq_none hinner hfields, Option.map_none]
        simp [file, hnone]
      by_cases hdisplay : name = "display"
      · subst hdisplay
        have hnone : optional display root "display" = none := by
          simp only [optional, htable, display_eq_none hinner hfields, Option.map_none]
        simp [file, hnone]
      -- A table of another name is itself unknown.
      apply file_eq_none_of_root (by rw [htable]; rfl)
      simp [fieldsOf, hruntime, hdisplay]

end Schema

namespace ConfigFile

variable {c : ConfigFile} {tables : List (String × List (String × Literal))} {name key : String}

theorem settings_isSome (h : (c.settings name).isSome) : name = "runtime" ∨ name = "display" := by
  unfold settings at h
  split at h
  · exact Or.inl rfl
  · exact Or.inr rfl
  · cases h

/-- The settings of a table are those of its section. -/
theorem Arranges.exists_given {settings : List (String × Literal)} (h : Arranges c tables)
    (htable : (name, settings) ∈ tables) :
    ∃ given, c.settings name = some given ∧ settings.Perm given := by
  have hrel := h.settings name
  rw [(lookup_eq_some_iff_mem h.names).mpr htable] at hrel
  generalize c.settings name = found at hrel
  cases hrel with
  | some hperm => exact ⟨_, rfl, hperm⟩

theorem Arranges.name_mem (h : Arranges c tables) {table : String × List (String × Literal)}
    (htable : table ∈ tables) : table.1 = "runtime" ∨ table.1 = "display" := by
  obtain ⟨given, hgiven, -⟩ := h.exists_given htable
  exact settings_isSome (by rw [hgiven]; rfl)

theorem fits_natural {value : Option Nat} (h : ∀ n ∈ value, n < Nat.pow 2 63) :
    ∀ literal ∈ value.map Literal.natural, literal.Fits := by
  intro literal hliteral
  obtain ⟨n, hn, rfl⟩ := Option.map_eq_some_iff.mp hliteral
  exact h n hn

theorem fits_boolean (value : Option Bool) :
    ∀ literal ∈ value.map Literal.boolean, literal.Fits := by
  intro literal hliteral
  obtain ⟨b, -, rfl⟩ := Option.map_eq_some_iff.mp hliteral
  trivial

theorem fits_runtime {sec : RuntimeSection} (hrange : c.InRange) (hsec : c.runtime = some sec) :
    ∀ field ∈ sec.fields, ∀ literal ∈ field.2, literal.Fits := by
  have hnumbers := hrange
  simp only [InRange, List.forall_mem_cons, ConfigField.stackCapacity, ConfigField.heapCapacity,
    ConfigField.maxCycles, ConfigField.seed, ConfigField.ofRuntime, hsec, Option.bind_some]
    at hnumbers
  obtain ⟨hstack, hheap, hcycles, hseed, -⟩ := hnumbers
  simp only [RuntimeSection.fields, List.forall_mem_cons]
  exact ⟨fits_natural hstack, fits_natural hheap, fits_natural hcycles, fits_natural hseed,
    fits_boolean _, by simp⟩

theorem fits_display (sec : DisplaySection) :
    ∀ field ∈ sec.fields, ∀ literal ∈ field.2, literal.Fits := by
  simp only [DisplaySection.fields, List.forall_mem_cons]
  exact ⟨fits_boolean _, fits_boolean _, by simp⟩

/-- The settings of a section are given fields, with bare keys, each another one, and with literals
in range. -/
theorem exists_fields {settings : List (String × Literal)} (hrange : c.InRange)
    (h : c.settings name = some settings) :
    ∃ fields, settings = given fields ∧ (fields.map Prod.fst).Nodup ∧
      (∀ key ∈ fields.map Prod.fst, IsBare key) ∧
        ∀ field ∈ fields, ∀ literal ∈ field.2, literal.Fits := by
  unfold ConfigFile.settings at h
  split at h
  · obtain ⟨sec, hsec, rfl⟩ := Option.map_eq_some_iff.mp h
    refine ⟨sec.fields, rfl, ?_, ?_, fits_runtime hrange hsec⟩ <;> rw [sec.keys_fields] <;> decide
  · obtain ⟨sec, -, rfl⟩ := Option.map_eq_some_iff.mp h
    refine ⟨sec.fields, rfl, ?_, ?_, fits_display sec⟩ <;> rw [sec.keys_fields] <;> decide
  · cases h

theorem Arranges.isBare_name (h : Arranges c tables) {table : String × List (String × Literal)}
    (htable : table ∈ tables) : IsBare table.1 := by
  rcases h.name_mem htable with hname | hname <;> rw [hname] <;> decide

theorem Arranges.plain (hrange : c.InRange) (h : Arranges c tables) :
    ∀ table ∈ tables, IsBare table.1 ∧ ∀ setting ∈ table.2, IsBare setting.1 ∧ setting.2.Fits := by
  intro table htable
  obtain ⟨settings, hsettings, hperm⟩ := h.exists_given htable
  obtain ⟨fields, rfl, -, hbare, hfits⟩ := exists_fields hrange hsettings
  refine ⟨h.isBare_name htable, ?_⟩
  rintro ⟨key, literal⟩ hsetting
  have hfield := mem_given.mp (hperm.mem_iff.mp hsetting)
  exact ⟨hbare key (List.mem_map.mpr ⟨_, hfield, rfl⟩), hfits _ hfield literal rfl⟩

theorem Arranges.nodup (hrange : c.InRange) (h : Arranges c tables) :
    ∀ table ∈ tables, (table.2.map Prod.fst).Nodup := by
  intro table htable
  obtain ⟨settings, hsettings, hperm⟩ := h.exists_given htable
  obtain ⟨fields, rfl, hnodup, -, -⟩ := exists_fields hrange hsettings
  exact (hperm.map Prod.fst).nodup_iff.mpr (hnodup.sublist (keys_given_sublist fields))

/-- **The entries of the tables are the configuration again.** -/
theorem Arranges.file_eq (h : Arranges c tables) : Schema.file (tableEntries tables) = some c := by
  have hknown : Schema.onlyKnown ["runtime", "display"] (tableEntries tables) = true := by
    rw [Schema.onlyKnown_iff]
    intro entry hentry
    obtain ⟨table, htable, rfl⟩ := List.mem_map.mp hentry
    simpa using h.name_mem htable
  have hruntime : Schema.optional Schema.runtime (tableEntries tables) "runtime" = some c.runtime :=
    Schema.optional_tables (fun _ _ hperm => Schema.runtime_settings hperm .header)
      (h.settings "runtime")
  have hdisplay : Schema.optional Schema.display (tableEntries tables) "display" = some c.display :=
    Schema.optional_tables (fun _ _ hperm => Schema.display_settings hperm .header)
      (h.settings "display")
  simp only [Schema.file, hknown, hruntime, hdisplay]
  rfl

end ConfigFile

end Reading

section Loading

namespace ConfigFile

variable {c : ConfigFile} {tables : List (String × List (String × Literal))} {text : List Char}
  {key : String}

theorem text_encode (text : List Char) : Entry.text (.file (Utf8.encode text)) = .ok text := by
  simp [Entry.text, Entry.read, Except.bind, Utf8.decode?_encode]

theorem load_of_parse_eq_none (path : String) (h : parse text = none) :
    load path (.file (Utf8.encode text)) = .error (.badSyntax path) := by
  simp only [load_eq, text_encode, h]

theorem load_of_parse_eq_some (path : String) (h : parse text = some c) :
    load path (.file (Utf8.encode text)) = c.validate.map fun _ => c := by
  simp only [load_eq, text_encode, h]

theorem validate_of_zeros {first : PositiveSetting} {others : List PositiveSetting}
    (h : c.zeros = first :: others) : c.validate = .error (.zero first) := by
  have hfault := c.validate_fault
  rw [h, List.map_cons, List.head?_cons] at hfault
  exact faultOf_eq_some_iff.mp hfault

theorem parse_of_written (hrange : c.InRange) (harranges : Arranges c tables)
    (hwritten : Written (tableLines tables) text) : parse text = some c := by
  have hplain := Toml.plain_tableLines_iff.mpr (harranges.plain hrange)
  rw [parse, Toml.parse_tables hwritten hplain harranges.names (harranges.nodup hrange),
    Option.bind_some, harranges.file_eq]

/-- A line with an unknown key is refused, whatever it gives the key and whatever follows. -/
theorem parse_unknown {lines : List Line} (hended : Ended lines text)
    (hplain : ∀ line ∈ lines, line.Plain) (hkey : IsBare key)
    (hfields : key ∉ Schema.fieldsOf (opened lines)) (rest : List Char) :
    parse (text ++ (Line.keyText key ++ rest)) = none := by
  unfold parse
  cases hparse : Toml.Document.parse (text ++ (Line.keyText key ++ rest)) with
  | none => rfl
  | some root => exact Schema.file_eq_none (Toml.holds_of_parse hended hplain hkey hparse) hfields

theorem parse_repeated {earlier later : List (String × List (String × Literal))} {name : String}
    {front back : List (String × Literal)} {literal : Literal} (hrange : c.InRange)
    (harranges : Arranges c (earlier ++ (name, front ++ back) :: later))
    (hkey : key ∈ (front ++ back).map Prod.fst) (hliteral : literal.Fits)
    (hwritten : Written (tableLines (earlier ++ (name, front ++ (key, literal) :: back) :: later))
      text) : parse text = none := by
  have hplain := harranges.plain hrange
  simp only [List.forall_mem_append, List.forall_mem_cons] at hplain
  obtain ⟨hearlier, ⟨hname, hfront, hback⟩, hlater⟩ := hplain
  have hbare : IsBare key := by
    obtain ⟨setting, hsetting, rfl⟩ := List.mem_map.mp hkey
    rcases List.mem_append.mp hsetting with hsetting | hsetting
    · exact (hfront setting hsetting).1
    · exact (hback setting hsetting).1
  have hlines : ∀ line ∈ tableLines (earlier ++ (name, front ++ (key, literal) :: back) :: later),
      line.Plain := by
    simp only [Toml.plain_tableLines_iff, List.forall_mem_append, List.forall_mem_cons]
    exact ⟨hearlier, ⟨hname, hfront, ⟨hbare, hliteral⟩, hback⟩, hlater⟩
  have htwice : ¬ ((front ++ (key, literal) :: back).map Prod.fst).Nodup := by
    rw [List.map_append, List.map_cons, List.nodup_middle, ← List.map_append, List.nodup_cons]
    exact fun h => h.1 hkey
  rw [parse, Toml.parse_repeated hwritten hlines htwice, Option.bind_none]

/-- **Files say what is written in them.**  A file that is written out, with its tables and their lines
in any order, is loaded as it was, or refused because of its first zero.  A line that starts with a
bare key that is no field of the table it falls in is refused, whatever it gives the key and whatever
follows; so is a section that sets a key twice. -/
theorem load_rendering (path : String) (hrange : c.InRange) (harranges : Arranges c tables)
    (hwritten : Written (tableLines tables) text) :
    (c.zeros = [] → load path (.file (Utf8.encode text)) = .ok c) ∧
    (∀ first others, c.zeros = first :: others →
      load path (.file (Utf8.encode text)) = .error (.zero first)) ∧
    (∀ before after start key rest, tableLines tables = before ++ after → Ended before start →
      IsBare key → key ∉ Schema.fieldsOf (opened before) →
        load path (.file (Utf8.encode (start ++ (Line.keyText key ++ rest)))) =
          .error (.badSyntax path)) ∧
    (∀ earlier name front back later key literal twice,
      tables = earlier ++ (name, front ++ back) :: later → key ∈ (front ++ back).map Prod.fst →
      Literal.Fits literal →
      Written (tableLines (earlier ++ (name, front ++ (key, literal) :: back) :: later)) twice →
        load path (.file (Utf8.encode twice)) = .error (.badSyntax path)) := by
  have hload := load_of_parse_eq_some path (parse_of_written hrange harranges hwritten)
  have hplain := Toml.plain_tableLines_iff.mpr (harranges.plain hrange)
  refine ⟨?_, ?_, ?_, ?_⟩
  · intro hzeros
    rw [hload, validate_eq_ok_iff.mpr hzeros]
    rfl
  · intro first others hzeros
    rw [hload, validate_of_zeros hzeros]
    rfl
  · intro before after start key rest hlines hended hkey hfields
    apply load_of_parse_eq_none
    refine parse_unknown hended ?_ hkey hfields rest
    exact fun line hline => hplain line (hlines ▸ List.mem_append_left after hline)
  · rintro earlier name front back later key literal twice rfl hkey hliteral htwice
    exact load_of_parse_eq_none path (parse_repeated hrange harranges hkey hliteral htwice)

/-- An empty section in front of one with its fields in another order, an empty line between them,
and no end of the last line. -/
theorem load_rendering_reversed :
    let c : ConfigFile := {
      runtime := some { heapCapacity := some 3, seed := some 0 }
      display := some {} }
    let tables := [("display", []), ("runtime", [("seed", .natural 0), ("heap_capacity", .natural 3)])]
    let text := "[display]\n\n[runtime]\r\nseed = 0\nheap_capacity = 3".toList
    let unknown := "[display]\ndepth = 0x1f\n[runtime]\nseed = 0\nheap_capacity = 3\n".toList
    let twice := "[display]\n[runtime]\nheap_capacity = 5\nseed = 0\nheap_capacity = 3\n".toList
    c.InRange ∧ Arranges c tables ∧ Written (tableLines tables) text ∧
      load "efrt.toml" (.file (Utf8.encode text)) = .ok c ∧
      load "efrt.toml" (.file (Utf8.encode unknown)) = .error (.badSyntax "efrt.toml") ∧
      load "efrt.toml" (.file (Utf8.encode twice)) = .error (.badSyntax "efrt.toml") := by
  intro c tables text unknown twice
  have hrange : c.InRange := by
    simp [InRange, ConfigField.stackCapacity, ConfigField.heapCapacity, ConfigField.maxCycles,
      ConfigField.seed, ConfigField.ofRuntime, c]
  have harranges : Arranges c tables := by
    refine ⟨by decide, ?_⟩
    intro name
    by_cases hruntime : name = "runtime"
    · subst hruntime
      exact .some (by decide)
    by_cases hdisplay : name = "display"
    · subst hdisplay
      exact .some (by decide)
    · have hlookup : tables.lookup name = none :=
        Toml.lookup_eq_none_of_not_mem (by simp [tables, hruntime, hdisplay])
      have hsettings : c.settings name = none := by
        simp only [settings]
      rw [hlookup, hsettings]
      exact .none
  have hwritten : Written (tableLines tables) text := by
    have hended : Ended [.header "display", .header "runtime", .setting "seed" (.natural 0)] _ :=
      .cons .newline (.empty .newline (.cons .returnNewline (.cons .newline .nil)))
    exact Or.inr ⟨_, .setting "heap_capacity" (.natural 3), _, rfl, hended, by decide +kernel⟩
  obtain ⟨hload, -, hunknown, htwice⟩ := load_rendering "efrt.toml" hrange harranges hwritten
  refine ⟨hrange, harranges, hwritten, hload rfl, ?_, ?_⟩
  · have hlines : unknown = "[display]\n".toList ++ (Line.keyText "depth" ++
        "0x1f\n[runtime]\nseed = 0\nheap_capacity = 3\n".toList) := by decide +kernel
    rw [hlines]
    exact hunknown [.header "display"] _ _ "depth" _ rfl (.cons .newline .nil) (by decide) (by decide)
  · have hlines : twice = Toml.stacked (tableLines [("display", []), ("runtime",
        [("heap_capacity", .natural 5), ("seed", .natural 0), ("heap_capacity", .natural 3)])]) := by
      decide +kernel
    rw [hlines]
    exact htwice [("display", [])] "runtime" [] _ [] "heap_capacity" (.natural 5) _ rfl (by decide)
      (by decide) (Or.inl (Toml.ended_stacked _))

end ConfigFile

end Loading

end ErrorFree
