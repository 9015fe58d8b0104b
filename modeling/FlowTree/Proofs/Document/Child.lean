import FlowTree.Catalog.Builtin
import FlowTree.Proofs.Document.Processor
import FlowTree.Proofs.Tree.Lens

/-!
# FlowTree.Proofs.Document.Child

Inserting a child, from the path of a processor to the document afterwards.

The path says which definition is meant, the catalog what the property of it holds, and the
property whether a child fits in.  An insertion that is carried out is a write of the property
with the child in it, so that the laws of writing tell what is found afterwards.

* `Json.insertChild_of_stored?` and its likes — the ways of an insertion;
* `Document.PropertyAt`, `Document.ChildOutcome` — where a child belongs, and what an
  insertion comes to;
* `Document.insertChild_outcome` — when it comes to which, and what it leaves behind.
-/

namespace FlowTree

open FlowTree.Json FlowTree.Path

namespace Json

/-! ## The ways of an insertion -/

section

variable {doc definition new : Json} {catalog : Catalog} {path : Path}
  {processor property : String} {declared : StepsProperty} {fields : Fields Json}

theorem insertChild_of_undeclared (hr : doc.resolve path = some definition)
    (hd : catalog.stepsProperty? processor property = none) (value : Json) (mode : ChildMode) :
    doc.insertChild catalog path processor property value mode =
      .refused doc (.unknownStepsProperty processor property) := by
  rw [insertChild_eq, hr]
  simp only [hd]

theorem insertChild_of_definitionFields? (hr : doc.resolve path = some definition)
    (hd : catalog.stepsProperty? processor property = some declared)
    (hf : definitionFields? definition = none) (value : Json) (mode : ChildMode) :
    doc.insertChild catalog path processor property value mode = .skipped doc := by
  rw [insertChild_eq, hr]
  simp only [hd, hf]

theorem insertChild_of_stored?_eq_none {value : Json} {mode : ChildMode}
    (hr : doc.resolve path = some definition)
    (hd : catalog.stepsProperty? processor property = some declared)
    (hf : definitionFields? definition = some fields)
    (hs : stored? declared value mode (Fields.get? property fields) = none) :
    doc.insertChild catalog path processor property value mode =
      .refused doc (.notAnArray (path.child property)) := by
  rw [insertChild_eq, hr]
  simp only [hd, hf, hs]

/-- A write under a key of a definition that is null or an object. -/
theorem set_child (hr : doc.resolve path = some definition)
    (hf : definitionFields? definition = some fields) (key : String) (value : Json) :
    doc.set (path.child key) value =
      (overwrite path.segments (.obj (Fields.put key value fields)) doc, .applied) := by
  rw [set, segments_child, setAt_append hr, setAt_cons_name (opened_of_definitionFields? hf key),
    setAt_nil]

/-- An insertion that is carried out writes the property with the child in it. -/
theorem insertChild_of_stored? {value : Json} {mode : ChildMode}
    (hr : doc.resolve path = some definition)
    (hd : catalog.stepsProperty? processor property = some declared)
    (hf : definitionFields? definition = some fields)
    (hs : stored? declared value mode (Fields.get? property fields) = some new) :
    doc.insertChild catalog path processor property value mode =
      .applied (doc.set (path.child property) new).1 := by
  rw [insertChild_eq, hr, set_child hr hf]
  simp only [hd, hf, hs]

end

end Json

namespace Document

/-- A child under `property` at `path` belongs to the node `definition` at `found`: this
defines the processor that the path addresses, and the catalog declares the property for
it. -/
structure PropertyAt (d : Document) (catalog : Catalog) (path : Path) (property : String)
    (found : Path) (declared : StepsProperty) (definition : Json) : Prop where
  declared : ∃ name, d.processorAt? path = some (found, name) ∧
    catalog.stepsProperty? name property = some declared
  resolve_found : d.resolve found = some definition

/-- The ways of an insertion, each with what decides for it and what it comes to. -/
inductive ChildOutcome (d : Document) (catalog : Catalog) (path : Path) (property : String)
    (value : Json) (mode : ChildMode) : Document × Verdict → Prop where
  | noProcessor (hp : d.processorAt? path = none) :
    ChildOutcome d catalog path property value mode (d, .done .skipped)
  | undeclared {found : Path} {name : String} (hp : d.processorAt? path = some (found, name))
    (hd : catalog.stepsProperty? name property = none) :
    ChildOutcome d catalog path property value mode
      (d, .refused (.unknownStepsProperty name property))
  | noFields {found : Path} {declared : StepsProperty} {definition : Json}
    (hat : d.PropertyAt catalog path property found declared definition)
    (hf : definitionFields? definition = none) :
    ChildOutcome d catalog path property value mode (d, .done .skipped)
  | noArray {found : Path} {declared : StepsProperty} {definition : Json} {fields : Fields Json}
    (hat : d.PropertyAt catalog path property found declared definition)
    (hf : definitionFields? definition = some fields)
    (hs : stored? declared value mode (Fields.get? property fields) = none) :
    ChildOutcome d catalog path property value mode
      (d, .refused (.notAnArray (found.child property)))
  | stored {found : Path} {declared : StepsProperty} {definition new : Json}
    {fields : Fields Json} (hat : d.PropertyAt catalog path property found declared definition)
    (hf : definitionFields? definition = some fields)
    (hs : stored? declared value mode (Fields.get? property fields) = some new) :
    ChildOutcome d catalog path property value mode
      ((d.set (found.child property) new).1, .done .applied)

section

variable {d : Document} {catalog : Catalog} {path found : Path} {property : String}
  {declared : StepsProperty} {definition : Json} {fields : Fields Json} {value : Json}
  {mode : ChildMode}

theorem insertChild_of_processorAt? {name : String}
    (hp : d.processorAt? path = some (found, name)) :
    d.insertChild catalog path property value mode =
      d.ofEdited (d.value.insertChild catalog found name property value mode) := by
  rw [insertChild, hp]

/-- An insertion comes to what its way comes to. -/
theorem insertChild_of_outcome {edited : Document × Verdict}
    (h : d.ChildOutcome catalog path property value mode edited) :
    d.insertChild catalog path property value mode = edited := by
  cases h with
  | noProcessor hp => rw [insertChild, hp]
  | undeclared hp hd =>
      obtain ⟨definition, hr⟩ := exists_definition_of_processorAt? hp
      rw [insertChild_of_processorAt? hp, Json.insertChild_of_undeclared hr hd]
      rfl
  | noFields hat hf =>
      obtain ⟨name, hp, hd⟩ := hat.declared
      rw [insertChild_of_processorAt? hp,
        Json.insertChild_of_definitionFields? hat.resolve_found hd hf]
      rfl
  | noArray hat hf hs =>
      obtain ⟨name, hp, hd⟩ := hat.declared
      rw [insertChild_of_processorAt? hp,
        Json.insertChild_of_stored?_eq_none hat.resolve_found hd hf hs]
      rfl
  | stored hat hf hs =>
      obtain ⟨name, hp, hd⟩ := hat.declared
      rw [insertChild_of_processorAt? hp, Json.insertChild_of_stored? hat.resolve_found hd hf hs]
      rfl

/-- Every insertion goes one of the ways. -/
theorem outcome_insertChild (d : Document) (catalog : Catalog) (path : Path) (property : String)
    (value : Json) (mode : ChildMode) :
    d.ChildOutcome catalog path property value mode
      (d.insertChild catalog path property value mode) := by
  suffices h : ∃ edited, d.ChildOutcome catalog path property value mode edited by
    obtain ⟨edited, hway⟩ := h
    rwa [insertChild_of_outcome hway]
  cases hp : d.processorAt? path with
  | none => exact ⟨_, .noProcessor hp⟩
  | some addressed =>
      obtain ⟨found, name⟩ := addressed
      obtain ⟨definition, hr⟩ := exists_definition_of_processorAt? hp
      cases hd : catalog.stepsProperty? name property with
      | none => exact ⟨_, .undeclared hp hd⟩
      | some declared =>
          have hat : d.PropertyAt catalog path property found declared definition :=
            ⟨⟨name, hp, hd⟩, hr⟩
          cases hf : definitionFields? definition with
          | none => exact ⟨_, .noFields hat hf⟩
          | some fields =>
              cases hs : stored? declared value mode (Fields.get? property fields) with
              | none => exact ⟨_, .noArray hat hf hs⟩
              | some new => exact ⟨_, .stored hat hf hs⟩

/-! ## When an insertion goes which way -/

section

variable {edited : Document × Verdict}
  (h : d.ChildOutcome catalog path property value mode edited)

include h

/-- There is one way for an insertion. -/
theorem ChildOutcome.unique {edited' : Document × Verdict}
    (h' : d.ChildOutcome catalog path property value mode edited') : edited = edited' :=
  (insertChild_of_outcome h).symm.trans (insertChild_of_outcome h')

theorem ChildOutcome.skipped_iff :
    edited.2 = .done .skipped ↔
      d.processorAt? path = none ∨
      ∃ found declared definition, d.PropertyAt catalog path property found declared definition ∧
        definition ≠ .null ∧ ∀ fields, definition ≠ .obj fields := by
  constructor
  · intro hv
    cases h with
    | noProcessor hp => exact .inl hp
    | noFields hat hf => exact .inr ⟨_, _, _, hat, definitionFields?_eq_none_iff.1 hf⟩
    | undeclared | noArray | stored => simp at hv
  · rintro (hp | ⟨found, declared, definition, hat, hnot⟩)
    · rw [h.unique (.noProcessor hp)]
    · rw [h.unique (.noFields hat (definitionFields?_eq_none_iff.2 hnot))]

theorem ChildOutcome.refused_iff {error : EditError} :
    edited.2 = .refused error ↔
      (∃ found name, d.processorAt? path = some (found, name) ∧
        catalog.stepsProperty? name property = none ∧
        error = .unknownStepsProperty name property) ∨
      ∃ found declared fields held,
        d.PropertyAt catalog path property found declared (.obj fields) ∧
        declared.holdsArray = true ∧ Fields.get? property fields = some held ∧ held ≠ .null ∧
        (∀ items, held ≠ .arr items) ∧ error = .notAnArray (found.child property) := by
  constructor
  · intro hv
    cases h with
    | undeclared hp hd => exact .inl ⟨_, _, hp, hd, (Verdict.refused.inj hv).symm⟩
    | noArray hat hf hs =>
        obtain ⟨harray, hnone⟩ := stored?_eq_none_iff.1 hs
        obtain ⟨held, hheld, hnull, hitems⟩ := children?_eq_none_iff.1 hnone
        -- nothing is held by a property of a null definition
        obtain ⟨own, rfl⟩ := eq_obj_of_get? hf hheld
        obtain rfl := Option.some.inj hf
        exact .inr ⟨_, _, _, held, hat, harray, hheld, hnull, hitems,
          (Verdict.refused.inj hv).symm⟩
    | noProcessor | noFields | stored => contradiction
  · rintro (⟨found, name, hp, hd, rfl⟩ |
      ⟨found, declared, fields, held, hat, harray, hheld, hnull, hitems, rfl⟩)
    · rw [h.unique (.undeclared hp hd)]
    · have hnone := children?_eq_none_iff.2 ⟨held, hheld, hnull, hitems⟩
      rw [h.unique (.noArray hat rfl (stored?_eq_none_iff.2 ⟨harray, hnone⟩))]

theorem ChildOutcome.applied_iff :
    edited.2 = .done .applied ↔
      ∃ found declared definition fields,
        d.PropertyAt catalog path property found declared definition ∧
        definitionFields? definition = some fields ∧
        (declared.holdsArray = true →
          (children? (Fields.get? property fields)).isSome = true) := by
  constructor
  · intro hv
    cases h with
    | stored hat hf hs =>
        refine ⟨_, _, _, _, hat, hf, fun harray => ?_⟩
        rw [Option.isSome_iff_ne_none]
        intro hnone
        rw [stored?_eq_none_iff.2 ⟨harray, hnone⟩] at hs
        contradiction
    | noProcessor | undeclared | noFields | noArray => simp at hv
  · rintro ⟨found, declared, definition, fields, hat, hf, hchildren⟩
    cases hs : stored? declared value mode (Fields.get? property fields) with
    | none =>
        obtain ⟨harray, hnone⟩ := stored?_eq_none_iff.1 hs
        rw [hnone] at hchildren
        exact absurd (hchildren harray) (by simp)
    | some new => rw [h.unique (.stored hat hf hs)]

/-- An insertion that is carried out writes the property. -/
theorem ChildOutcome.exists_stored (hv : edited.2 = .done .applied)
    (hat : d.PropertyAt catalog path property found declared definition)
    (hf : definitionFields? definition = some fields) :
    ∃ new, stored? declared value mode (Fields.get? property fields) = some new ∧
      edited.1 = (d.set (found.child property) new).1 := by
  cases hs : stored? declared value mode (Fields.get? property fields) with
  | none =>
      rw [h.unique (.noArray hat hf hs)] at hv
      simp at hv
  | some new => exact ⟨new, rfl, by rw [h.unique (.stored hat hf hs)]⟩

end

/-! ## What an insertion leaves behind -/

theorem resolve_set_child_self (new : Json) (hr : d.resolve found = some definition)
    (hf : definitionFields? definition = some fields) :
    (d.set (found.child property) new).1.resolve (found.child property) = some new :=
  get?_setAt_self (congrArg Prod.snd (set_child hr hf property new))

/-- Once a property is written, the fields of the definition are the old ones with it. -/
theorem resolve_set_child (new : Json) (hr : d.resolve found = some definition)
    (hf : definitionFields? definition = some fields) :
    (d.set (found.child property) new).1.resolve found =
      some (.obj (Fields.put property new fields)) := by
  have hset : (d.set (found.child property) new).1.value = _ :=
    congrArg Prod.fst (set_child hr hf property new)
  rw [resolve, hset]
  exact get?_overwrite_self _ hr

theorem resolve_set_apart (new : Json) {other : Path}
    (hother : Apart path.segments other.segments) :
    (d.set path new).1.resolve other = d.resolve other :=
  get?_setAt_of_apart hother new d.value

end

/-- **Children.** An insertion

* is skipped when the path has no processor, or when the definition of the processor is
  neither null nor an object;
* is refused when the catalog declares no such property for the processor, and when the
  property holds an array by its declaration but something else in the definition;
* is carried out otherwise.

Then a property for one child holds the value, and an array has it in front of the old
elements or behind them.  The other properties of the definition keep their values and their
order, and apart from the property nothing changes. -/
theorem insertChild_outcome (d : Document) (catalog : Catalog) (path : Path) (property : String)
    (value : Json) (mode : ChildMode) :
    let edited := d.insertChild catalog path property value mode
    (edited.2 = .done .skipped ↔
      d.processorAt? path = none ∨
      ∃ found declared definition, d.PropertyAt catalog path property found declared definition ∧
        definition ≠ .null ∧ ∀ fields, definition ≠ .obj fields) ∧
    (∀ error, edited.2 = .refused error ↔
      (∃ found name, d.processorAt? path = some (found, name) ∧
        catalog.stepsProperty? name property = none ∧
        error = .unknownStepsProperty name property) ∨
      ∃ found declared fields held,
        d.PropertyAt catalog path property found declared (.obj fields) ∧
        declared.holdsArray = true ∧ Fields.get? property fields = some held ∧ held ≠ .null ∧
        (∀ items, held ≠ .arr items) ∧ error = .notAnArray (found.child property)) ∧
    (edited.2 = .done .applied ↔
      ∃ found declared definition fields,
        d.PropertyAt catalog path property found declared definition ∧
        definitionFields? definition = some fields ∧
        (declared.holdsArray = true → (children? (Fields.get? property fields)).isSome = true)) ∧
    (edited.2 = .done .applied → ∀ found declared definition fields,
      d.PropertyAt catalog path property found declared definition →
      definitionFields? definition = some fields →
        (declared.holdsArray = false → edited.1.resolve (found.child property) = some value) ∧
        (declared.holdsArray = true → ∃ items,
          children? (Fields.get? property fields) = some items ∧
          (mode = .first →
            edited.1.resolve (found.child property) = some (.arr (value :: items))) ∧
          (mode = .append →
            edited.1.resolve (found.child property) = some (.arr (items ++ [value])))) ∧
        (∃ after, edited.1.resolve found = some (.obj after) ∧
          after.filter (·.1 ≠ property) = fields.filter (·.1 ≠ property)) ∧
        ∀ other : Path, Apart (found.child property).segments other.segments →
          edited.1.resolve other = d.resolve other) := by
  intro edited
  have hway : d.ChildOutcome catalog path property value mode edited :=
    outcome_insertChild d catalog path property value mode
  refine ⟨hway.skipped_iff, fun _ => hway.refused_iff, hway.applied_iff, ?_⟩
  intro happlied found declared definition fields hat hf
  have hr := hat.resolve_found
  obtain ⟨new, hs, hwritten⟩ := hway.exists_stored happlied hat hf
  rw [hwritten, resolve_set_child_self new hr hf, resolve_set_child new hr hf]
  refine ⟨fun hone => ?single, fun harray => ?array, ⟨_, rfl, ?others⟩, fun other => ?apart⟩
  case single => rw [← hs, stored?, hone, if_neg Bool.false_ne_true]
  case array =>
    rw [stored?, if_pos harray] at hs
    obtain ⟨items, hitems, rfl⟩ := Option.map_eq_some_iff.1 hs
    exact ⟨items, hitems, by rintro rfl; rfl, by rintro rfl; rfl⟩
  case others =>
    let keep : String → Bool := (· ≠ property)
    have hkeep : keep property = false := by simp [keep]
    exact Fields.filter_put hkeep new fields
  case apart => exact resolve_set_apart new

/-- A filter, addressed by its step holder, takes a first step where it has null, with its id
and the next step as before; a choice whose clauses are no array does not take one; a step
that the catalog does not know, and a path that leads nowhere, have no place for a child. -/
theorem insertChild_outcome_filter :
    let filter : Fields Json := [("id", .str "f"), ("steps", .null)]
    let choice : Fields Json := [("when", .str "a")]
    let steps : Path := (Path.root "route").child "steps"
    let d : Document := ⟨.obj [("route", .obj [("steps", .arr
      [.obj [("filter", .obj filter)], .obj [("choice", .obj choice)], .obj [("own", .null)]])])],
      "route"⟩
    let own : Path := (steps.elementAt 0).child "filter"
    let log : Json := .obj [("log", .null)]
    let taken := d.insertChild .builtin (steps.elementAt 0) "steps" log .append
    (taken.2 = .done .applied ∧ taken.1.resolve (own.child "steps") = some (.arr [log]) ∧
      (∃ after, taken.1.resolve own = some (.obj after) ∧
        after.filter (·.1 ≠ "steps") = filter.filter (·.1 ≠ "steps")) ∧
      taken.1.resolve (steps.elementAt 1) = some (.obj [("choice", .obj choice)])) ∧
    (d.insertChild .builtin (steps.elementAt 1) "when" log .first).2 =
      .refused (.notAnArray (((steps.elementAt 1).child "choice").child "when")) ∧
    (d.insertChild .builtin (steps.elementAt 2) "steps" log .first).2 =
      .refused (.unknownStepsProperty "own" "steps") ∧
    (d.insertChild .builtin (steps.elementAt 3) "steps" log .first).2 = .done .skipped := by
  intro filter choice steps d own log taken
  have hfilter : d.PropertyAt .builtin (steps.elementAt 0) "steps" own ⟨"steps", .branch⟩
      (.obj filter) := ⟨⟨"filter", by decide +kernel, by decide +kernel⟩, by decide +kernel⟩
  have hchoice : d.PropertyAt .builtin (steps.elementAt 1) "when"
      ((steps.elementAt 1).child "choice") ⟨"when", .clauseArray⟩ (.obj choice) :=
    ⟨⟨"choice", by decide +kernel, by decide +kernel⟩, by decide +kernel⟩
  refine ⟨?_, ?_, ?_, ?_⟩
  · obtain ⟨-, -, happlied, hafter⟩ :=
      insertChild_outcome d .builtin (steps.elementAt 0) "steps" log .append
    have htaken : taken.2 = .done .applied :=
      happlied.2 ⟨own, _, _, filter, hfilter, rfl, fun _ => rfl⟩
    obtain ⟨-, harray, hothers, hapart⟩ := hafter htaken own _ _ filter hfilter rfl
    obtain ⟨items, hitems, -, happend⟩ := harray rfl
    obtain rfl : [] = items := Option.some.inj hitems
    exact ⟨htaken, happend rfl, hothers, (hapart (steps.elementAt 1) ⟨by decide, by decide⟩).trans
      (by decide +kernel)⟩
  · obtain ⟨-, hrefused, -⟩ := insertChild_outcome d .builtin (steps.elementAt 1) "when" log .first
    exact (hrefused _).2 (.inr ⟨_, _, _, .str "a", hchoice, rfl, rfl, by simp, by simp, rfl⟩)
  · obtain ⟨-, hrefused, -⟩ :=
      insertChild_outcome d .builtin (steps.elementAt 2) "steps" log .first
    exact (hrefused _).2 (.inl ⟨(steps.elementAt 2).child "own", "own", by decide +kernel,
      by decide +kernel, rfl⟩)
  · obtain ⟨hskipped, -⟩ := insertChild_outcome d .builtin (steps.elementAt 3) "steps" log .first
    exact hskipped.2 (.inl (by decide +kernel))

end Document

end FlowTree
