import FlowTree.Proofs.Catalog.Latest
import FlowTree.Record.Catalog

/-!
# FlowTree.Proofs.Catalog.Overlay

What a catalog answers after a file that was refused.

The entries of a file are looked at and inserted in one go, processors first, and a refusal
comes at the first of them without a name.  Those before it stay:

* `BreaksAt`, `CatalogFile.StopsAt` — where a file is refused, and what was taken before;
* `merge_of_all_named`, `merge_of_stopsAt` — the catalog that a file leaves, taken or refused;
* `overlaid_processors`, `overlaid_components` — what is found in it by name;
* `failed_extend_answers` — when nothing is seen of the refused file.
-/

namespace FlowTree

/-! ## where a file is refused -/

/-- The first entry of a row without a name, and the entries before it. -/
structure BreaksAt {α : Type} (name : α → String) (row before : List α) (entry : α) : Prop where
  split : ∃ after, row = before ++ entry :: after
  named : ∀ earlier ∈ before, name earlier ≠ ""
  nameless : name entry = ""

theorem named_or_breaksAt {α : Type} (name : α → String) (row : List α) :
    (∀ entry ∈ row, name entry ≠ "") ∨ ∃ before entry, BreaksAt name row before entry := by
  cases h : row.find? (name · == "") with
  | none => exact .inl (by simpa using h)
  | some entry =>
      obtain ⟨hentry, before, after, rfl, hnamed⟩ := List.find?_eq_some_iff_append.1 h
      exact .inr ⟨before, entry, ⟨after, rfl⟩, by simpa using hnamed, by simpa using hentry⟩

/-- A file is refused for an error, after these processors and components were taken. -/
inductive CatalogFile.StopsAt (file : CatalogFile) :
    CatalogError → List ProcessorEntry → List ComponentEntry → Prop
  | processor {before : List ProcessorEntry} {entry : ProcessorEntry}
      (h : BreaksAt (·.name) file.processors before entry) :
      file.StopsAt (.namelessProcessor entry.title) before []
  | component {before : List ComponentEntry} {entry : ComponentEntry}
      (hall : ∀ processor ∈ file.processors, processor.name ≠ "")
      (h : BreaksAt (·.name) file.components before entry) :
      file.StopsAt (.namelessComponent entry.title) file.processors before

/-- Either all entries of a file have names, or it is refused. -/
theorem CatalogFile.named_or_stopsAt (file : CatalogFile) :
    ((∀ processor ∈ file.processors, processor.name ≠ "") ∧
      ∀ component ∈ file.components, component.name ≠ "") ∨
    ∃ error processors components, file.StopsAt error processors components := by
  obtain hall | ⟨before, entry, hbreaks⟩ := named_or_breaksAt (·.name) file.processors
  · obtain hnamed | ⟨before, entry, hbreaks⟩ := named_or_breaksAt (·.name) file.components
    · exact .inl ⟨hall, hnamed⟩
    · exact .inr ⟨_, file.processors, before, .component hall hbreaks⟩
  · exact .inr ⟨_, before, [], .processor hbreaks⟩

/-- The processors taken are processors of the file that have names. -/
theorem CatalogFile.StopsAt.of_mem_processors {file : CatalogFile} {error : CatalogError}
    {processors : List ProcessorEntry} {components : List ComponentEntry}
    (h : file.StopsAt error processors components) {entry : ProcessorEntry}
    (he : entry ∈ processors) : entry ∈ file.processors ∧ entry.name ≠ "" := by
  cases h with
  | processor hbreaks =>
      obtain ⟨after, hsplit⟩ := hbreaks.split
      exact ⟨hsplit ▸ List.mem_append_left _ he, hbreaks.named entry he⟩
  | component hall _ => exact ⟨he, hall entry he⟩

/-- The components taken are components of the file. -/
theorem CatalogFile.StopsAt.of_mem_components {file : CatalogFile} {error : CatalogError}
    {processors : List ProcessorEntry} {components : List ComponentEntry}
    (h : file.StopsAt error processors components) {entry : ComponentEntry}
    (he : entry ∈ components) : entry ∈ file.components := by
  cases h with
  | processor _ => contradiction
  | component _ hbreaks =>
      obtain ⟨after, hsplit⟩ := hbreaks.split
      exact hsplit ▸ List.mem_append_left _ he

namespace Catalog

variable {c d : Catalog} {file : CatalogFile} {error : CatalogError}
  {processors : List ProcessorEntry} {components : List ComponentEntry}

/-! ## what is left of it -/

/-- A catalog with entries laid over it. -/
def overlay (c : Catalog) (processors : List ProcessorEntry) (components : List ComponentEntry) :
    Catalog :=
  components.foldl insertComponent (processors.foldl insertProcessor c)

theorem mergeComponents_of_named (h : ∀ entry ∈ components, entry.name ≠ "")
    (c : Catalog) (rest : List ComponentEntry) :
    c.mergeComponents (components ++ rest) =
      (components.foldl insertComponent c).mergeComponents rest := by
  induction components generalizing c with
  | nil => rfl
  | cons entry components ih =>
      obtain ⟨hentry, hcomponents⟩ := List.forall_mem_cons.1 h
      rw [List.cons_append, mergeComponents, if_neg (by simpa using hentry), ih hcomponents,
        List.foldl_cons]

theorem mergeEntries_of_named (h : ∀ entry ∈ processors, entry.name ≠ "")
    (c : Catalog) (components : List ComponentEntry) (rest : List ProcessorEntry) :
    c.mergeEntries components (processors ++ rest) =
      (processors.foldl insertProcessor c).mergeEntries components rest := by
  induction processors generalizing c with
  | nil => rfl
  | cons entry processors ih =>
      obtain ⟨hentry, hprocessors⟩ := List.forall_mem_cons.1 h
      rw [List.cons_append, mergeEntries, if_neg (by simpa using hentry), ih hprocessors,
        List.foldl_cons]

/-- The processors of a file that all have names are laid over, and its components come next. -/
theorem merge_of_named_processors (h : ∀ entry ∈ file.processors, entry.name ≠ "") (c : Catalog) :
    c.merge file =
      (file.processors.foldl insertProcessor c).mergeComponents file.components := by
  have hmerge := mergeEntries_of_named h c file.components []
  rwa [List.append_nil] at hmerge

/-- A refused file leaves what was taken of it before. -/
theorem merge_of_stopsAt (h : file.StopsAt error processors components) (c : Catalog) :
    c.merge file = (c.overlay processors components, some error) := by
  cases h with
  | processor hbreaks =>
      obtain ⟨⟨after, hsplit⟩, hnamed, hnameless⟩ := hbreaks
      rw [merge, hsplit, mergeEntries_of_named hnamed, mergeEntries,
        if_pos (by simpa using hnameless)]
      rfl
  | component hall hbreaks =>
      obtain ⟨⟨after, hsplit⟩, hnamed, hnameless⟩ := hbreaks
      rw [merge_of_named_processors hall, hsplit, mergeComponents_of_named hnamed, mergeComponents,
        if_pos (by simpa using hnameless)]
      rfl

/-- A file whose entries all have names is laid over whole. -/
theorem merge_of_all_named (hprocessors : ∀ entry ∈ file.processors, entry.name ≠ "")
    (hcomponents : ∀ entry ∈ file.components, entry.name ≠ "") (c : Catalog) :
    c.merge file = (c.overlay file.processors file.components, none) := by
  have hmerge := mergeComponents_of_named hcomponents
    (file.processors.foldl insertProcessor c) []
  rw [List.append_nil] at hmerge
  rw [merge_of_named_processors hprocessors, hmerge]
  rfl

/-- Laying a file over a catalog fails where the file has an entry without a name. -/
theorem merge_failed_iff :
    (c.merge file).2 = some error ↔
      ∃ processors components, file.StopsAt error processors components := by
  constructor
  · intro hfailed
    obtain ⟨hprocessors, hcomponents⟩ | ⟨other, processors, components, hstops⟩ :=
      file.named_or_stopsAt
    · rw [merge_of_all_named hprocessors hcomponents] at hfailed
      contradiction
    · rw [merge_of_stopsAt hstops, Option.some.injEq] at hfailed
      exact ⟨processors, components, hfailed ▸ hstops⟩
  · rintro ⟨processors, components, hstops⟩
    rw [merge_of_stopsAt hstops]

/-! ## what is found in it -/

theorem processor?_insertProcessor (c : Catalog) (entry : ProcessorEntry) (name : String) :
    (c.insertProcessor entry).processor? name =
      if entry.name = name then some entry else c.processor? name := by
  split
  · rename_i hname
    rw [← hname, processor?_insertProcessor_self]
  · rename_i hname
    exact processor?_insertProcessor_of_ne hname

theorem component?_insertComponent (c : Catalog) (entry : ComponentEntry) (name : String) :
    (c.insertComponent entry).component? name =
      if entry.name = name then some entry else c.component? name := by
  split
  · rename_i hname
    rw [← hname]
    exact Fields.get?_put_self _ _ _
  · rename_i hname
    exact Fields.get?_put_of_ne hname _ _

/-- Processors leave the components alone. -/
theorem components_insertProcessors (c : Catalog) (processors : List ProcessorEntry) :
    (processors.foldl insertProcessor c).components = c.components := by
  induction processors generalizing c with
  | nil => rfl
  | cons entry processors ih => exact ih (c.insertProcessor entry)

/-- Components leave the processors alone. -/
theorem processors_insertComponents (c : Catalog) (components : List ComponentEntry) :
    (components.foldl insertComponent c).processors = c.processors := by
  induction components generalizing c with
  | nil => rfl
  | cons entry components ih => exact ih (c.insertComponent entry)

theorem processors_overlay (c : Catalog) (processors : List ProcessorEntry)
    (components : List ComponentEntry) :
    (c.overlay processors components).processors =
      (processors.foldl insertProcessor c).processors := processors_insertComponents _ components

theorem overlaid_processors (c : Catalog) (processors : List ProcessorEntry)
    (components : List ComponentEntry) :
    Overlaid (·.name) processors c.processor? (c.overlay processors components).processor? := by
  have hover := overlaid_foldl insertProcessor processor? processor?_insertProcessor c processors
  have hsame : (c.overlay processors components).processor? =
      (processors.foldl insertProcessor c).processor? := by
    funext name
    rw [processor?, processors_overlay, processor?]
  rwa [hsame]

theorem overlaid_components (c : Catalog) (processors : List ProcessorEntry)
    (components : List ComponentEntry) :
    Overlaid (·.name) components c.component? (c.overlay processors components).component? := by
  have hover := overlaid_foldl insertComponent component? component?_insertComponent
    (processors.foldl insertProcessor c) components
  have hsame : (processors.foldl insertProcessor c).component? = c.component? := by
    funext name
    rw [component?, components_insertProcessors, component?]
  rwa [hsame] at hover

/-- A processor of a known name adds none. -/
theorem processorCount_insertProcessors
    (h : ∀ entry ∈ processors, entry.name ∈ Fields.keys c.processors) :
    (processors.foldl insertProcessor c).processorCount = c.processorCount := by
  induction processors generalizing c with
  | nil => rfl
  | cons entry processors ih =>
      obtain ⟨hentry, hprocessors⟩ := List.forall_mem_cons.1 h
      have hkeys : Fields.keys (c.insertProcessor entry).processors = Fields.keys c.processors := by
        rw [insertProcessor, Fields.keys_put, if_pos hentry]
      have hcount : (c.insertProcessor entry).processorCount = c.processorCount := by
        simpa [Fields.keys, processorCount] using congrArg List.length hkeys
      rw [List.foldl_cons, ih (by rwa [hkeys]), hcount]

/-! ## whether anything is seen of it -/

/-- Every lookup answers in one catalog as in the other. -/
structure AnswersLike (c d : Catalog) : Prop where
  processor : ∀ name, c.processor? name = d.processor? name
  component : ∀ name, c.component? name = d.component? name
  stepsProperties : ∀ name, c.stepsProperties name = d.stepsProperties name
  stepsProperty : ∀ name property, c.stepsProperty? name property = d.stepsProperty? name property
  processorCount : c.processorCount = d.processorCount

/-- The steps properties are those of the entries. -/
theorem AnswersLike.of_entries (hprocessor : ∀ name, c.processor? name = d.processor? name)
    (hcomponent : ∀ name, c.component? name = d.component? name)
    (hcount : c.processorCount = d.processorCount) : c.AnswersLike d := by
  have hproperties : ∀ name, c.stepsProperties name = d.stepsProperties name := fun name => by
    rw [Catalog.stepsProperties, hprocessor, Catalog.stepsProperties]
  refine ⟨hprocessor, hcomponent, hproperties, fun name property => ?_, hcount⟩
  rw [stepsProperty?, hproperties, stepsProperty?]

/-- Nothing is seen of entries when the latest of each name was in the catalog before. -/
theorem answersLike_overlay_iff :
    (c.overlay processors components).AnswersLike c ↔
      (∀ entry, Latest (·.name) processors entry → c.processor? entry.name = some entry) ∧
        ∀ entry, Latest (·.name) components entry → c.component? entry.name = some entry := by
  have hprocessors := overlaid_processors c processors components
  have hcomponents := overlaid_components c processors components
  rw [← hprocessors.unchanged_iff, ← hcomponents.unchanged_iff]
  refine ⟨fun h => ⟨h.processor, h.component⟩, fun ⟨hprocessor, hcomponent⟩ => ?_⟩
  refine .of_entries hprocessor hcomponent ?_
  have hknown : ∀ entry ∈ processors, entry.name ∈ Fields.keys c.processors := by
    intro entry hmem
    obtain ⟨latest, hlatest, hname⟩ := exists_latest (·.name) hmem
    have hthere := hprocessors.unchanged_iff.1 hprocessor latest hlatest
    exact hname ▸ Fields.mem_keys_of_get? hthere
  rw [processorCount, processors_overlay]
  exact processorCount_insertProcessors hknown

/-- **A refused file.** When a text is not taken whole,

* either it is no catalog file, and the catalog is as before,
* or an entry has no name.  Then the entries before it are found in the catalog, the latest
  of each name, and what was there under other names; the later ones are not.  So every
  lookup answers as before exactly when each of those latest entries was in the catalog
  already, the same in all fields. -/
theorem failed_extend_answers {text : String} (h : (c.extend text).2 = some error) :
    (error = .malformed ∧ (JsonText.ofString? text).bind CatalogFile.ofText? = none ∧
      (c.extend text).1 = c) ∨
    ∃ file processors components,
      (JsonText.ofString? text).bind CatalogFile.ofText? = some file ∧
      file.StopsAt error processors components ∧
      Overlaid (·.name) processors c.processor? (c.extend text).1.processor? ∧
      Overlaid (·.name) components c.component? (c.extend text).1.component? ∧
      ((c.extend text).1.AnswersLike c ↔
        (∀ entry, Latest (·.name) processors entry → c.processor? entry.name = some entry) ∧
          ∀ entry, Latest (·.name) components entry → c.component? entry.name = some entry) := by
  unfold extend at h ⊢
  cases hread : (JsonText.ofString? text).bind CatalogFile.ofText? with
  | none =>
      rw [hread, Option.some.injEq] at h
      exact .inl ⟨h.symm, rfl, rfl⟩
  | some file =>
      rw [hread] at h
      obtain ⟨processors, components, hstops⟩ := merge_failed_iff.1 h
      refine .inr ⟨file, processors, components, rfl, hstops, ?_⟩
      simp only [merge_of_stopsAt hstops]
      exact ⟨overlaid_processors c processors components,
        overlaid_components c processors components, answersLike_overlay_iff⟩

/-- Nothing is seen of a refused file whose first processor was known as it is.  The records of
the text are written as arrays. -/
theorem failed_extend_answers_known :
    let known : ProcessorEntry := ⟨"a", "A", none, none, []⟩
    let text := "[[[\"a\",\"A\"],[\"\",\"B\"]]]"
    let c := empty.insertProcessor known
    (c.extend text).2 = some (.namelessProcessor "B") ∧ (c.extend text).1.AnswersLike c := by
  intro known text c
  let nameless : ProcessorEntry := ⟨"", "B", none, none, []⟩
  have hfailed : (c.extend text).2 = some (.namelessProcessor "B") := by decide +kernel
  have hread : (JsonText.ofString? text).bind CatalogFile.ofText? =
      some ⟨[known, nameless], []⟩ := by decide +kernel
  refine ⟨hfailed, ?_⟩
  rcases failed_extend_answers hfailed with ⟨herror, -⟩ | ⟨_, _, _, hfile, hstops, -, -, hiff⟩
  · exact nomatch herror
  · obtain rfl := Option.some.inj (hread.symm.trans hfile)
    refine hiff.2 ⟨fun entry hlatest => ?_, fun entry hlatest => ?_⟩
    · obtain ⟨hmem, hnamed⟩ := hstops.of_mem_processors hlatest.mem
      have hentry : entry = known ∨ entry = nameless := by simpa using hmem
      obtain rfl := hentry.resolve_right fun he => hnamed (he ▸ rfl)
      exact processor?_insertProcessor_self _ _
    · exact absurd (hstops.of_mem_components hlatest.mem) List.not_mem_nil

/-- The processors before one without a name are found in the catalog afterwards. -/
theorem not_answersLike_of_failed_extend :
    ¬ ∀ (c : Catalog) (text : String) (error : CatalogError),
      (c.extend text).2 = some error → (c.extend text).1.AnswersLike c := by
  intro h
  let text := "\x7b\"processors\":[\x7b\"name\":\"a\",\"title\":\"A\"\x7d," ++
    "\x7b\"name\":\"\",\"title\":\"B\"\x7d]\x7d"
  have hlike := h empty text (.namelessProcessor "B") (by decide +kernel)
  have hfound : (empty.extend text).1.processor? "a" = some ⟨"a", "A", none, none, []⟩ := by
    decide +kernel
  rw [hlike.processor] at hfound
  contradiction

end Catalog

end FlowTree
