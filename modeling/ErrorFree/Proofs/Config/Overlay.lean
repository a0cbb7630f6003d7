import ErrorFree.Proofs.Config.Faults

/-!
# Laying files over each other

**Fields.**  That a section is there is a field too, with the same two laws as the others; and a
file is determined by its fields (`ConfigFile.ext_fields`).  So a law of `Option.or` is a law of
`merge`, for all fields at once.

**Layers.**  `overlay` lays any number of files over each other, the first at the bottom.  In each
field the last file that gives it has its way (`ConfigField.get_overlay`).

**Result.**  `merge_layers`: files form a monoid in which every file is idempotent, `overlay` takes
lists to it, and the settings of the layers are those of the last that give them.
-/

namespace ErrorFree

section Sections

namespace ConfigField

/-- The section about the machine is there. -/
def hasRuntime : ConfigField Unit where
  get f := f.runtime.map fun _ => ()
  get_empty := rfl
  get_merge := by
    rintro ⟨_ | lower, _⟩ ⟨_ | upper, _⟩ <;> rfl

/-- The section about what is told is there. -/
def hasDisplay : ConfigField Unit where
  get f := f.display.map fun _ => ()
  get_empty := rfl
  get_merge := by
    rintro ⟨_, _ | lower⟩ ⟨_, _ | upper⟩ <;> rfl

end ConfigField

namespace ConfigFile

variable {f g : ConfigFile}

theorem runtime_eq_of_fields (h : ∀ (α : Type) (field : ConfigField α), field.get f = field.get g) :
    f.runtime = g.runtime := by
  have hpresent := h _ .hasRuntime
  have hstack := h _ .stackCapacity
  have hheap := h _ .heapCapacity
  have hcycles := h _ .maxCycles
  have hseed := h _ .seed
  have hzero := h _ .autoZero
  obtain ⟨_ | ⟨_, _, _, _, _⟩, _⟩ := f <;> obtain ⟨_ | ⟨_, _, _, _, _⟩, _⟩ := g
  · rfl
  · cases hpresent
  · cases hpresent
  · cases hstack
    cases hheap
    cases hcycles
    cases hseed
    cases hzero
    rfl

theorem display_eq_of_fields (h : ∀ (α : Type) (field : ConfigField α), field.get f = field.get g) :
    f.display = g.display := by
  have hpresent := h _ .hasDisplay
  have hprogress := h _ .progress
  have hsummary := h _ .summary
  obtain ⟨_, _ | ⟨_, _⟩⟩ := f <;> obtain ⟨_, _ | ⟨_, _⟩⟩ := g
  · rfl
  · cases hpresent
  · cases hpresent
  · cases hprogress
    cases hsummary
    rfl

/-- Files with the same fields are the same. -/
theorem ext_fields (h : ∀ (α : Type) (field : ConfigField α), field.get f = field.get g) : f = g := by
  have hruntime := runtime_eq_of_fields h
  have hdisplay := display_eq_of_fields h
  cases f
  cases g
  cases hruntime
  cases hdisplay
  rfl

end ConfigFile

end Sections

section Laws

namespace ConfigFile

variable (a b c : ConfigFile)

theorem merge_assoc : (a.merge b).merge c = a.merge (b.merge c) := by
  apply ext_fields
  intro α field
  simp only [field.get_merge, Option.or_assoc]

theorem empty_merge : merge {} a = a := by
  apply ext_fields
  intro α field
  rw [field.get_merge, field.get_empty, Option.or_none]

theorem merge_empty : a.merge {} = a := by
  apply ext_fields
  intro α field
  rw [field.get_merge, field.get_empty, Option.none_or]

theorem merge_self : a.merge a = a := by
  apply ext_fields
  intro α field
  rw [field.get_merge, Option.or_self]

variable {a b}

/-- A zero in merged files comes from one of them. -/
theorem validate_merge (ha : a.validate = .ok ()) (hb : b.validate = .ok ()) :
    (a.merge b).validate = .ok () := by
  rw [validate_eq_ok_iff, zeros_eq_nil_iff] at ha hb ⊢
  intro s hzero
  rw [s.field.get_merge, Option.or_eq_some_iff] at hzero
  rcases hzero with hzero | ⟨-, hzero⟩
  · exact hb s hzero
  · exact ha s hzero

end ConfigFile

end Laws

section Layers

/-- Files laid over each other, the first at the bottom. -/
def ConfigFile.overlay (layers : List ConfigFile) : ConfigFile := layers.foldl merge {}

/-- The value in the last layer that gives one. -/
def lastGiven {α : Type} (get : ConfigFile → Option α) (layers : List ConfigFile) : Option α :=
  (layers.filterMap get).getLast?

theorem lastGiven_isSome_iff {α : Type} (get : ConfigFile → Option α) (layers : List ConfigFile) :
    (lastGiven get layers).isSome = true ↔ ∃ layer ∈ layers, (get layer).isSome = true := by
  rw [lastGiven, List.getLast?_isSome, Ne, List.filterMap_eq_nil_iff]
  simp [Option.isSome_iff_ne_none]

namespace ConfigField

variable {α : Type} (field : ConfigField α)

theorem lastGiven_cons (layer : ConfigFile) (layers : List ConfigFile) :
    lastGiven field.get (layer :: layers) = (lastGiven field.get layers).or (field.get layer) := by
  unfold lastGiven
  cases hlayer : field.get layer with
  | none => rw [List.filterMap_cons_none hlayer, Option.or_none]
  | some value =>
      rw [List.filterMap_cons_some hlayer, List.getLast?_cons]
      cases (layers.filterMap field.get).getLast? <;> rfl

theorem get_foldl_merge (layers : List ConfigFile) (bottom : ConfigFile) :
    field.get (layers.foldl ConfigFile.merge bottom) =
      (lastGiven field.get layers).or (field.get bottom) := by
  induction layers generalizing bottom with
  | nil => rfl
  | cons layer layers ih =>
      rw [List.foldl_cons, ih, field.get_merge, lastGiven_cons, Option.or_assoc]

/-- **The last layer that gives a field has its way.** -/
theorem get_overlay (layers : List ConfigFile) :
    field.get (ConfigFile.overlay layers) = lastGiven field.get layers := by
  rw [ConfigFile.overlay, get_foldl_merge, field.get_empty, Option.or_none]

end ConfigField

namespace ConfigFile

theorem overlay_append (lower upper : List ConfigFile) :
    overlay (lower ++ upper) = (overlay lower).merge (overlay upper) := by
  apply ext_fields
  intro α field
  rw [field.get_merge, field.get_overlay upper]
  rw [overlay, List.foldl_append, field.get_foldl_merge]
  rfl

variable (layers : List ConfigFile)

theorem runtime_overlay_isSome_iff :
    (overlay layers).runtime.isSome = true ↔ ∃ layer ∈ layers, layer.runtime.isSome = true := by
  have hfield := lastGiven_isSome_iff ConfigField.hasRuntime.get layers
  rw [← ConfigField.get_overlay] at hfield
  simpa [ConfigField.hasRuntime] using hfield

theorem display_overlay_isSome_iff :
    (overlay layers).display.isSome = true ↔ ∃ layer ∈ layers, layer.display.isSome = true := by
  have hfield := lastGiven_isSome_iff ConfigField.hasDisplay.get layers
  rw [← ConfigField.get_overlay] at hfield
  simpa [ConfigField.hasDisplay] using hfield

/-- **Layers of files.**  Laying files over each other is associative, the empty file changes nothing
below or above another, a file laid over itself changes nothing, and no zero comes from files without
one.  Of any number of layers, split anywhere, each setting is the one in the last layer that gives it,
or the default if none does, and a section is there if it is in some layer. -/
theorem merge_layers :
    (∀ a b c : ConfigFile, (a.merge b).merge c = a.merge (b.merge c)) ∧
    (∀ a : ConfigFile, merge {} a = a ∧ a.merge {} = a ∧ a.merge a = a) ∧
    (∀ a b : ConfigFile, a.validate = .ok () → b.validate = .ok () →
      (a.merge b).validate = .ok ()) ∧
    ∀ layers : List ConfigFile,
      (∀ lower upper, layers = lower ++ upper →
        overlay layers = (overlay lower).merge (overlay upper)) ∧
      (overlay layers).runtimeSettings =
        { stackCapacity :=
            (lastGiven (·.runtime.bind (·.stackCapacity)) layers).getD Stack.defaultCapacity
          heapCapacity :=
            (lastGiven (·.runtime.bind (·.heapCapacity)) layers).getD Heap.defaultCapacity
          maxCycles := lastGiven (·.runtime.bind (·.maxCycles)) layers
          seed := lastGiven (·.runtime.bind (·.seed)) layers
          autoZero := (lastGiven (·.runtime.bind (·.autoZero)) layers).getD false } ∧
      (overlay layers).displaySettings =
        { progress := (lastGiven (·.display.bind (·.progress)) layers).getD true
          summary := (lastGiven (·.display.bind (·.summary)) layers).getD true } ∧
      ((overlay layers).runtime.isSome = true ↔
        ∃ layer ∈ layers, layer.runtime.isSome = true) ∧
      ((overlay layers).display.isSome = true ↔
        ∃ layer ∈ layers, layer.display.isSome = true) := by
  refine ⟨merge_assoc, fun a => ⟨empty_merge a, merge_empty a, merge_self a⟩,
    fun a b => validate_merge, fun layers => ⟨?_, ?_, ?_, ?_, ?_⟩⟩
  · rintro lower upper rfl
    exact overlay_append lower upper
  · simp only [runtimeSettings_eq, ConfigField.get_overlay]
    rfl
  · simp only [displaySettings_eq, ConfigField.get_overlay]
    rfl
  · exact runtime_overlay_isSome_iff layers
  · exact display_overlay_isSome_iff layers

/-- An empty section between two that give different fields. -/
theorem merge_layers_sparse :
    let bottom : ConfigFile := { runtime := some { heapCapacity := some 5, seed := some 1 } }
    let middle : ConfigFile := { runtime := some {}, display := some { progress := some false } }
    let top : ConfigFile := { runtime := some { seed := some 0 }, display := some {} }
    bottom.validate = .ok () ∧ middle.validate = .ok () ∧ (bottom.merge middle).validate = .ok () ∧
      (overlay [bottom, middle, top]).runtimeSettings = { heapCapacity := 5, seed := some 0 } ∧
      (overlay [bottom, middle, top]).displaySettings = { progress := false } ∧
      (overlay [bottom, middle, top]).display.isSome = true := by
  intro bottom middle top
  obtain ⟨-, -, hvalid, hlayers⟩ := merge_layers
  obtain ⟨-, hruntime, hdisplay, -, hpresent⟩ := hlayers [bottom, middle, top]
  refine ⟨rfl, rfl, hvalid _ _ rfl rfl, hruntime.trans (by decide), hdisplay, hpresent.mpr ⟨top, ?_, rfl⟩⟩
  exact List.mem_cons_of_mem _ (List.mem_cons_of_mem _ List.mem_cons_self)

end ConfigFile

end Layers

end ErrorFree
