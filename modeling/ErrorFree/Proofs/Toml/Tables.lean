import ErrorFree.Proofs.Toml.Lines

/-!
# Tables of a TOML document

**Growth.**  A statement only adds: keys stay, and a table stays a table that keeps its keys (`Grows`,
`apply_grows`).  So a key that is in a document at some line is in the document as a whole.

**The open table.**  `opened` is the last header among some lines, and `Document.At` says that a
document has that table open.  An assignment puts its key there, and is refused if the key is there
already.

**Results.**
* `parse_tables`: tables with different names, and different keys in each, are the entries of the
  document, in the order in which they are written.
* `parse_repeated`: there is no document in which a table sets a key twice.
* `holds_of_parse`: a key that a line sets is in the table that is open there, whatever the line
  gives it and whatever follows.
-/

namespace ErrorFree

namespace Toml

section Growth

variable {e e' e'' : Entries} {key k : String} {v : Value} {origin made : Origin}

theorem lookup_put_self (h : (e.lookup key).isSome) : (e.put key v).lookup key = some v := by
  induction e with
  | nil => cases h
  | cons entry e ih =>
      obtain ⟨name, old⟩ := entry
      by_cases hname : name = key
      · simp [Entries.put, hname]
      · have hne : (key == name) = false := beq_eq_false_iff_ne.mpr (Ne.symm hname)
        rw [List.lookup_cons, hne] at h
        rw [Entries.put, if_neg hname, List.lookup_cons, hne]
        exact ih h

theorem lookup_put_of_ne (h : k ≠ key) : (e.put key v).lookup k = e.lookup k := by
  induction e with
  | nil => rfl
  | cons entry e ih =>
      obtain ⟨name, old⟩ := entry
      by_cases hname : name = key
      · have hne : (k == name) = false := beq_eq_false_iff_ne.mpr (hname ▸ h)
        rw [Entries.put, if_pos hname, List.lookup_cons, List.lookup_cons, hne]
      · rw [Entries.put, if_neg hname, List.lookup_cons, List.lookup_cons, ih]

/-- The later entries have the keys of the earlier ones, and a table of the earlier ones is still a
table, with its keys. -/
structure Grows (e e' : Entries) : Prop where
  keys : ∀ key, (e.lookup key).isSome → (e'.lookup key).isSome
  tables : ∀ key origin inner, e.lookup key = some (.table origin inner) →
    ∃ origin' inner', e'.lookup key = some (.table origin' inner') ∧
      ∀ k, (inner.lookup k).isSome → (inner'.lookup k).isSome

namespace Grows

theorem refl (e : Entries) : Grows e e :=
  ⟨fun _ h => h, fun _ origin inner h => ⟨origin, inner, h, fun _ hk => hk⟩⟩

theorem trans (h : Grows e e') (h' : Grows e' e'') : Grows e e'' := by
  constructor
  · exact fun key hkey => h'.keys key (h.keys key hkey)
  · intro key origin inner htable
    obtain ⟨origin', inner', htable', hkeys⟩ := h.tables key origin inner htable
    obtain ⟨origin'', inner'', htable'', hkeys'⟩ := h'.tables key origin' inner' htable'
    exact ⟨origin'', inner'', htable'', fun k hk => hkeys' k (hkeys k hk)⟩

theorem append (e new : Entries) : Grows e (e ++ new) := by
  constructor
  · intro key hkey
    rw [List.lookup_append, Option.isSome_or, hkey, Bool.true_or]
  · intro key origin inner htable
    refine ⟨origin, inner, ?_, fun _ hk => hk⟩
    rw [List.lookup_append, htable, Option.some_or]

/-- A value may be replaced, a table only by one that keeps its keys. -/
theorem put {old : Value} (hold : e.lookup key = some old)
    (htable : ∀ origin inner, old = .table origin inner →
      ∃ origin' inner', v = .table origin' inner' ∧
        ∀ k, (inner.lookup k).isSome → (inner'.lookup k).isSome) :
    Grows e (e.put key v) := by
  have hself : (e.put key v).lookup key = some v := lookup_put_self (by rw [hold]; rfl)
  constructor
  · intro k hk
    by_cases hkey : k = key
    · rw [hkey, hself]
      rfl
    · rw [lookup_put_of_ne hkey]
      exact hk
  · intro k origin inner hinner
    by_cases hkey : k = key
    · rw [hkey] at hinner ⊢
      rw [hself]
      obtain ⟨origin', inner', rfl, hkeys⟩ := htable origin inner
        (Option.some.inj (hold.symm.trans hinner))
      exact ⟨origin', inner', rfl, hkeys⟩
    · rw [lookup_put_of_ne hkey]
      exact ⟨origin, inner, hinner, fun _ hk => hk⟩

end Grows

theorem define?_eq_some (h : e.define? key v = some e') :
    e.lookup key = none ∧ e' = e ++ [(key, v)] := by
  unfold Entries.define? at h
  split at h
  · exact ⟨‹_›, (Option.some.inj h).symm⟩
  · cases h

theorem define?_grows (h : e.define? key v = some e') : Grows e e' := by
  obtain ⟨-, rfl⟩ := define?_eq_some h
  exact Grows.append e _

theorem openTable_grows (h : openTable key e = some e') : Grows e e' := by
  unfold openTable at h
  split at h
  · obtain rfl := Option.some.inj h
    exact Grows.append e _
  · rename_i inner hold
    obtain rfl := Option.some.inj h
    apply Grows.put hold
    rintro origin inner ⟨⟩
    exact ⟨_, _, rfl, fun _ hk => hk⟩
  · cases h

theorem openItem_grows (h : openItem key e = some e') : Grows e e' := by
  unfold openItem at h
  split at h
  · obtain rfl := Option.some.inj h
    exact Grows.append e _
  · rename_i earlier last hold
    obtain rfl := Option.some.inj h
    apply Grows.put hold
    rintro origin inner ⟨⟩
  · cases h

/-- What is done at the end of a path adds there, so the whole adds. -/
theorem within_grows {f : Origin → Entries → Option Entries} {path : List String}
    (hf : ∀ origin e e', f origin e = some e' → Grows e e')
    (h : within made f path origin e = some e') : Grows e e' := by
  -- Only a table that the path goes through has keys to keep: a new one has none yet, and a list of
  -- tables is no table.
  induction path generalizing origin e e' with
  | nil => exact hf origin e e' h
  | cons key path ih =>
      unfold within at h
      split at h
      · obtain ⟨inner, -, h⟩ := Option.bind_eq_some_iff.mp h
        obtain rfl := Option.some.inj h
        exact Grows.append e _
      · rename_i origin inner hold
        split at h
        · obtain ⟨inner', hinner, h⟩ := Option.bind_eq_some_iff.mp h
          obtain rfl := Option.some.inj h
          apply Grows.put hold
          rintro origin inner ⟨⟩
          exact ⟨_, inner', rfl, (ih hinner).keys⟩
        · cases h
      · rename_i earlier last hold
        obtain ⟨last', -, h⟩ := Option.bind_eq_some_iff.mp h
        obtain rfl := Option.some.inj h
        apply Grows.put hold
        rintro origin inner ⟨⟩
      · cases h

theorem assignPath_grows {path : List String} (h : assignPath path v origin e = some e') :
    Grows e e' := by
  unfold assignPath at h
  split at h
  · cases h
  · refine within_grows ?_ h
    intro reached inner inner' hinner
    split at hinner
    · cases hinner
    · exact define?_grows hinner

namespace Document

variable {d d' : Document}

theorem atParent_grows {path : List String} {f : String → Entries → Option Entries}
    (hf : ∀ key e e', f key e = some e' → Grows e e') (h : atParent path f e = some e') :
    Grows e e' := by
  unfold atParent at h
  split at h
  · cases h
  · exact within_grows (fun _ => hf _) h

/-- **A statement only adds.** -/
theorem apply_grows {statement : Statement} (h : d.apply statement = some d') :
    Grows d.root d'.root := by
  cases statement with
  | table path =>
      obtain ⟨root, hroot, rfl⟩ := Option.map_eq_some_iff.mp h
      exact atParent_grows (fun _ _ _ => openTable_grows) hroot
  | item path =>
      obtain ⟨root, hroot, rfl⟩ := Option.map_eq_some_iff.mp h
      exact atParent_grows (fun _ _ _ => openItem_grows) hroot
  | assignment path v =>
      obtain ⟨root, hroot, rfl⟩ := Option.map_eq_some_iff.mp h
      exact within_grows (fun _ _ _ => assignPath_grows) hroot

theorem foldlM_apply_grows {statements : List Statement}
    (h : statements.foldlM apply d = some d') : Grows d.root d'.root := by
  induction statements generalizing d with
  | nil =>
      obtain rfl := Option.some.inj h
      exact Grows.refl _
  | cons statement statements ih =>
      rw [List.foldlM_cons] at h
      obtain ⟨next, hnext, hrest⟩ := Option.bind_eq_some_iff.mp h
      exact (apply_grows hnext).trans (ih hrest)

end Document

end Growth

section OpenTable

variable {root inner : Entries} {d d' : Document} {name key : String} {v : Value} {origin : Origin}
  {table : Option String}

/-- A key is in the root, or in a table of the root. -/
def Holds (root : Entries) : Option String → String → Prop
  | none, key => (root.lookup key).isSome
  | some name, key =>
      ∃ origin inner, root.lookup name = some (.table origin inner) ∧ (inner.lookup key).isSome

theorem Grows.holds {root' : Entries} (h : Grows root root') (hkey : Holds root table key) :
    Holds root' table key := by
  cases table with
  | none => exact h.keys key hkey
  | some name =>
      obtain ⟨origin, inner, htable, hinner⟩ := hkey
      obtain ⟨origin', inner', htable', hkeys⟩ := h.tables name origin inner htable
      exact ⟨origin', inner', htable', hkeys key hinner⟩

/-- The table that is open after a line. -/
def Line.opened (before : Option String) : Line → Option String
  | .header name => some name
  | .setting _ _ => before

/-- The table that is open after some lines: that of the last header, the root before the first. -/
def opened (lines : List Line) : Option String := lines.foldl Line.opened none

namespace Document

/-- The table is open in the document. -/
inductive At : Document → Option String → Prop
  | root (root : Entries) : At ⟨root, []⟩ none
  | table {root inner : Entries} {name : String} {origin : Origin} :
      root.lookup name = some (.table origin inner) → At ⟨root, [name]⟩ (some name)

theorem apply_header (d : Document) (name : String) :
    d.apply (.table [name]) = (openTable name d.root).map fun root => ⟨root, [name]⟩ :=
  rfl

theorem assignPath_singleton (key : String) (v : Value) (origin : Origin) (e : Entries) :
    assignPath [key] v origin e = e.define? key v := by
  simp [assignPath, assign, within]

theorem apply_setting_root (root : Entries) (key : String) (v : Value) :
    apply ⟨root, []⟩ (.assignment [key] v) = (root.define? key v).map fun root => ⟨root, []⟩ := by
  simp only [apply, within, assignPath_singleton]

theorem apply_setting_table (h : root.lookup name = some (.table origin inner)) (key : String)
    (v : Value) :
    apply ⟨root, [name]⟩ (.assignment [key] v) =
      if origin.passable .implied then
        (inner.define? key v).map fun inner => ⟨root.put name (.table origin inner), [name]⟩
      else none := by
  simp only [apply, within, h, assignPath_singleton]
  split
  · rw [Option.map_eq_bind, Option.map_eq_bind]
    cases inner.define? key v <;> rfl
  · rfl

theorem lookup_of_openTable {root' : Entries} (h : openTable name root = some root') :
    ∃ inner, root'.lookup name = some (.table .header inner) := by
  unfold openTable at h
  split at h
  · rename_i hnone
    obtain rfl := Option.some.inj h
    exact ⟨[], by simp [List.lookup_append, hnone]⟩
  · rename_i inner hold
    obtain rfl := Option.some.inj h
    exact ⟨inner, lookup_put_self (by rw [hold]; rfl)⟩
  · cases h

/-- A line opens its table, or leaves the open one open. -/
theorem At.apply {line : Line} (h : At d table) (hline : d.apply line.statement = some d') :
    At d' (line.opened table) := by
  cases line with
  | header name =>
      obtain ⟨root, hroot, rfl⟩ := Option.map_eq_some_iff.mp hline
      obtain ⟨inner, hinner⟩ := lookup_of_openTable hroot
      exact .table hinner
  | setting key literal =>
      have hgrows := apply_grows hline
      obtain ⟨root, -, rfl⟩ := Option.map_eq_some_iff.mp hline
      cases h with
      | root => exact .root root
      | table htable =>
          obtain ⟨origin', inner', htable', -⟩ := hgrows.tables _ _ _ htable
          exact .table htable'

theorem At.run {lines : List Line} (h : At d table)
    (hlines : (lines.map Line.statement).foldlM Document.apply d = some d') :
    At d' (lines.foldl Line.opened table) := by
  induction lines generalizing d table with
  | nil =>
      obtain rfl := Option.some.inj hlines
      exact h
  | cons line lines ih =>
      rw [List.map_cons, List.foldlM_cons] at hlines
      obtain ⟨next, hnext, hrest⟩ := Option.bind_eq_some_iff.mp hlines
      exact ih (h.apply hnext) hrest

/-- A setting puts its key into the open table. -/
theorem At.holds (h : At d table) (hkey : d.apply (.assignment [key] v) = some d') :
    Holds d'.root table key := by
  cases h with
  | root root =>
      rw [apply_setting_root] at hkey
      obtain ⟨root', hroot, rfl⟩ := Option.map_eq_some_iff.mp hkey
      obtain ⟨-, rfl⟩ := define?_eq_some hroot
      simp [Holds, List.lookup_append]
  | @table root inner name origin htable =>
      rw [apply_setting_table htable] at hkey
      split at hkey
      · obtain ⟨inner', hinner, rfl⟩ := Option.map_eq_some_iff.mp hkey
        obtain ⟨-, rfl⟩ := define?_eq_some hinner
        refine ⟨origin, inner ++ [(key, v)], lookup_put_self (by rw [htable]; rfl), ?_⟩
        simp [List.lookup_append]
      · cases hkey

/-- A key is set once in a table. -/
theorem At.not_holds (h : At d table) (hkey : d.apply (.assignment [key] v) = some d') :
    ¬ Holds d.root table key := by
  intro hheld
  cases h with
  | root root =>
      rw [apply_setting_root] at hkey
      obtain ⟨root', hroot, -⟩ := Option.map_eq_some_iff.mp hkey
      have hnone := (define?_eq_some hroot).1
      simp [Holds, hnone] at hheld
  | @table root inner name origin htable =>
      rw [apply_setting_table htable] at hkey
      obtain ⟨origin', inner', htable', hinner'⟩ := hheld
      obtain ⟨rfl, rfl⟩ := Value.table.inj (Option.some.inj (htable.symm.trans htable'))
      split at hkey
      · obtain ⟨inner'', hinner, -⟩ := Option.map_eq_some_iff.mp hkey
        rw [(define?_eq_some hinner).1] at hinner'
        cases hinner'
      · cases hkey

end Document

end OpenTable

section Tables

variable {d d' : Document} {name key : String} {table : Option String} {text : List Char}
  {settings : List (String × Literal)} {tables : List (String × List (String × Literal))}

/-- The lines of some settings. -/
def settingLines (settings : List (String × Literal)) : List Line :=
  settings.map fun setting => .setting setting.1 setting.2

/-- The lines of some tables, each with its header in front of its settings. -/
def tableLines (tables : List (String × List (String × Literal))) : List Line :=
  tables.flatMap fun table => .header table.1 :: settingLines table.2

/-- The entries that settings make. -/
def settingEntries (settings : List (String × Literal)) : Entries :=
  settings.map fun setting => (setting.1, setting.2.value)

/-- The entries that tables make. -/
def tableEntries (tables : List (String × List (String × Literal))) : Entries :=
  tables.map fun table => (table.1, .table .header (settingEntries table.2))

theorem plain_tableLines_iff :
    (∀ line ∈ tableLines tables, line.Plain) ↔
      ∀ table ∈ tables, IsBare table.1 ∧ ∀ setting ∈ table.2, IsBare setting.1 ∧ setting.2.Fits := by
  simp only [tableLines, settingLines, List.forall_mem_flatMap, List.forall_mem_cons,
    List.forall_mem_map, Line.Plain]

/-- Settings that can be carried out one after the other have different keys, none of which was in
the open table before. -/
theorem nodup_of_run (h : Document.At d table)
    (hrun : ((settingLines settings).map Line.statement).foldlM Document.apply d = some d') :
    (settings.map Prod.fst).Nodup ∧ ∀ key ∈ settings.map Prod.fst, ¬ Holds d.root table key := by
  induction settings generalizing d with
  | nil => simp
  | cons setting settings ih =>
      obtain ⟨key, literal⟩ := setting
      rw [settingLines, List.map_cons, List.map_cons, List.foldlM_cons] at hrun
      obtain ⟨next, hnext, hrest⟩ := Option.bind_eq_some_iff.mp hrun
      have hat : Document.At next table := Document.At.apply h hnext
      obtain ⟨hnodup, hfresh⟩ := ih hat hrest
      have hgrows := Document.apply_grows hnext
      rw [List.map_cons, List.nodup_cons]
      refine ⟨⟨fun hkey => hfresh key hkey (h.holds hnext), hnodup⟩, ?_⟩
      intro other hother hheld
      rcases List.mem_cons.mp hother with rfl | hother
      · exact h.not_holds hnext hheld
      · exact hfresh other hother (hgrows.holds hheld)

theorem put_append {root : Entries} {old v : Value} (h : root.lookup name = none) :
    Entries.put name v (root ++ [(name, old)]) = root ++ [(name, v)] := by
  induction root with
  | nil => exact if_pos rfl
  | cons entry root ih =>
      obtain ⟨other, value⟩ := entry
      have hne : name ≠ other := by
        rintro rfl
        simp at h
      rw [List.lookup_cons, beq_eq_false_iff_ne.mpr hne] at h
      rw [List.cons_append, Entries.put, if_neg (Ne.symm hne), ih h]
      rfl

theorem lookup_eq_none_of_not_mem {α : Type} {l : List (String × α)} (h : key ∉ l.map Prod.fst) :
    l.lookup key = none := by
  rw [List.lookup_eq_none_iff]
  intro entry hentry
  rw [bne_iff_ne]
  rintro rfl
  exact h (List.mem_map_of_mem hentry)

theorem lookup_map_snd {α β : Type} (f : α → β) (l : List (String × α)) (key : String) :
    (l.map fun entry => (entry.1, f entry.2)).lookup key = (l.lookup key).map f := by
  induction l with
  | nil => rfl
  | cons entry l ih =>
      obtain ⟨name, a⟩ := entry
      rw [List.map_cons, List.lookup_cons, List.lookup_cons, ih]
      cases key == name <;> rfl

theorem lookup_settingEntries (settings : List (String × Literal)) (key : String) :
    (settingEntries settings).lookup key = (settings.lookup key).map Literal.value :=
  lookup_map_snd Literal.value settings key

theorem lookup_tableEntries (tables : List (String × List (String × Literal))) (name : String) :
    (tableEntries tables).lookup name =
      (tables.lookup name).map fun settings => .table .header (settingEntries settings) :=
  lookup_map_snd (fun settings => Value.table .header (settingEntries settings)) tables name

/-- Settings with new keys go into the open table, which is the last. -/
theorem run_settings {root : Entries} (before : List (String × Literal))
    (hname : root.lookup name = none) (hkeys : ((before ++ settings).map Prod.fst).Nodup) :
    ((settingLines settings).map Line.statement).foldlM Document.apply
        ⟨root ++ [(name, .table .header (settingEntries before))], [name]⟩ =
      some ⟨root ++ [(name, .table .header (settingEntries (before ++ settings)))], [name]⟩ := by
  -- On the settings that are left; `before` are those that are in the table already.
  induction settings generalizing before with
  | nil =>
      rw [List.append_nil]
      rfl
  | cons setting settings ih =>
      obtain ⟨key, literal⟩ := setting
      have hkey : (settingEntries before).lookup key = none := by
        rw [List.map_append, List.map_cons] at hkeys
        have hfresh : key ∉ before.map Prod.fst :=
          fun hmem => List.disjoint_of_nodup_append hkeys hmem List.mem_cons_self
        rw [lookup_settingEntries, lookup_eq_none_of_not_mem hfresh, Option.map_none]
      have htable : (root ++ [(name, Value.table .header (settingEntries before))]).lookup name =
          some (.table .header (settingEntries before)) := by
        simp [List.lookup_append, hname]
      have hdefine : (settingEntries before).define? key literal.value =
          some (settingEntries (before ++ [(key, literal)])) := by
        simp only [Entries.define?, hkey]
        simp [settingEntries]
      have hstep : Document.apply ⟨root ++ [(name, .table .header (settingEntries before))], [name]⟩
          (.assignment [key] literal.value) =
          some ⟨root ++ [(name, .table .header (settingEntries (before ++ [(key, literal)])))],
            [name]⟩ := by
        have hpassable : Origin.passable .header .implied = true := rfl
        rw [Document.apply_setting_table htable, hdefine, if_pos hpassable, Option.map_some,
          put_append hname]
      rw [List.append_cons before (key, literal) settings] at hkeys ⊢
      rw [settingLines, List.map_cons, List.map_cons, List.foldlM_cons]
      show (Document.apply _ (.assignment [key] literal.value)).bind _ = _
      rw [hstep, Option.bind_some]
      exact ih _ hkeys

/-- A table with a new name is put behind the others. -/
theorem run_table {before : List (String × List (String × Literal))} (current : List String)
    (hname : name ∉ before.map Prod.fst) (hkeys : (settings.map Prod.fst).Nodup) :
    ((Line.header name :: settingLines settings).map Line.statement).foldlM Document.apply
        ⟨tableEntries before, current⟩ =
      some ⟨tableEntries (before ++ [(name, settings)]), [name]⟩ := by
  have hnone : (tableEntries before).lookup name = none := by
    rw [lookup_tableEntries, lookup_eq_none_of_not_mem hname, Option.map_none]
  have hopen : openTable name (tableEntries before) =
      some (tableEntries before ++ [(name, .table .header (settingEntries []))]) := by
    unfold openTable
    rw [hnone]
    rfl
  rw [List.map_cons, List.foldlM_cons, Line.statement, Document.apply_header, hopen]
  show (_ : List Statement).foldlM _ _ = _
  rw [run_settings [] hnone hkeys]
  simp [tableEntries]

theorem run_tables (before : List (String × List (String × Literal))) (current : List String)
    (hnames : ((before ++ tables).map Prod.fst).Nodup)
    (hkeys : ∀ table ∈ tables, (table.2.map Prod.fst).Nodup) :
    ∃ current', ((tableLines tables).map Line.statement).foldlM Document.apply
        ⟨tableEntries before, current⟩ = some ⟨tableEntries (before ++ tables), current'⟩ := by
  induction tables generalizing before current with
  | nil => exact ⟨current, by rw [List.append_nil]; rfl⟩
  | cons table tables ih =>
      obtain ⟨name, settings⟩ := table
      have hname : name ∉ before.map Prod.fst := by
        rw [List.map_append, List.map_cons] at hnames
        exact fun hmem => List.disjoint_of_nodup_append hnames hmem List.mem_cons_self
      rw [List.append_cons] at hnames ⊢
      obtain ⟨current', hrest⟩ := ih _ [name] hnames
        (fun other h => hkeys other (List.mem_cons_of_mem _ h))
      refine ⟨current', ?_⟩
      rw [tableLines, List.flatMap_cons, List.map_append, List.foldlM_append,
        run_table current hname (hkeys _ List.mem_cons_self)]
      exact hrest

/-- **Tables are what is written.** -/
theorem parse_tables (hwritten : Written (tableLines tables) text)
    (hplain : ∀ line ∈ tableLines tables, line.Plain) (hnames : (tables.map Prod.fst).Nodup)
    (hkeys : ∀ table ∈ tables, (table.2.map Prod.fst).Nodup) :
    Document.parse text = some (tableEntries tables) := by
  obtain ⟨current, hrun⟩ := run_tables [] [] hnames hkeys
  have hrun : ((tableLines tables).map Line.statement).foldlM Document.apply {} =
      some ⟨tableEntries tables, current⟩ := hrun
  rw [Document.parse, statements_written hwritten hplain, Option.bind_eq_bind, Option.bind_some,
    hrun]
  rfl

/-- **A table sets no key twice.** -/
theorem parse_repeated {before after : List (String × List (String × Literal))}
    (hwritten : Written (tableLines (before ++ (name, settings) :: after)) text)
    (hplain : ∀ line ∈ tableLines (before ++ (name, settings) :: after), line.Plain)
    (hkeys : ¬ (settings.map Prod.fst).Nodup) : Document.parse text = none := by
  rw [Document.parse, statements_written hwritten hplain, Option.bind_eq_bind, Option.bind_some]
  suffices hrun : ((tableLines (before ++ (name, settings) :: after)).map
      Line.statement).foldlM Document.apply {} = none by
    rw [hrun]
    rfl
  rw [Option.eq_none_iff_forall_ne_some]
  intro d hrun
  rw [tableLines, List.flatMap_append, List.flatMap_cons, List.map_append, List.map_append,
    List.foldlM_append] at hrun
  obtain ⟨d₁, hbefore, hrun⟩ := Option.bind_eq_some_iff.mp hrun
  rw [List.foldlM_append] at hrun
  obtain ⟨d₃, htable, -⟩ := Option.bind_eq_some_iff.mp hrun
  rw [List.map_cons, List.foldlM_cons] at htable
  obtain ⟨d₂, hheader, hsettings⟩ := Option.bind_eq_some_iff.mp htable
  have hat : Document.At d₁ _ := (Document.At.root []).run hbefore
  exact hkeys (nodup_of_run (hat.apply hheader) hsettings).1

/-- **A key is in the table that is open at its line**, whatever it is given and whatever follows. -/
theorem holds_of_parse {lines : List Line} {rest : List Char} {root : Entries}
    (hended : Ended lines text) (hplain : ∀ line ∈ lines, line.Plain) (hkey : IsBare key)
    (hparse : Document.parse (text ++ (Line.keyText key ++ rest)) = some root) :
    Holds root (opened lines) key := by
  obtain ⟨statements, hstatements, hparse⟩ := Option.bind_eq_some_iff.mp hparse
  obtain ⟨d, hrun, hroot⟩ := Option.bind_eq_some_iff.mp hparse
  obtain rfl : d.root = root := Option.some.inj hroot
  rcases statements_key hended hplain hkey rest with hnone | ⟨v, more, hsome⟩
  · rw [hnone] at hstatements
    cases hstatements
  · obtain rfl := Option.some.inj (hsome.symm.trans hstatements)
    rw [List.foldlM_append] at hrun
    obtain ⟨d₁, hlines, hrun⟩ := Option.bind_eq_some_iff.mp hrun
    rw [List.foldlM_cons] at hrun
    obtain ⟨d₂, hassign, hmore⟩ := Option.bind_eq_some_iff.mp hrun
    have hat : Document.At d₁ (opened lines) := (Document.At.root []).run hlines
    exact (Document.foldlM_apply_grows hmore).holds (hat.holds hassign)

end Tables

end Toml

end ErrorFree
