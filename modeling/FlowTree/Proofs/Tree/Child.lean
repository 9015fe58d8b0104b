import FlowTree.Proofs.Tree.Frame
import FlowTree.Tree.Child

/-!
# FlowTree.Proofs.Tree.Child

Inserting a child in place comes to one write, or to none.

On its way to the child an insertion puts an empty container where there is null or nothing.
An empty container takes the child, so that none of the exits behind such a write is taken:
an insertion that is given up has written nothing, and one that is carried out leaves the
definition with one property written.

* `insertUnder_applied_of_absent`, `insertInto_applied_of_null` — what is put on the way takes
  the child;
* `Json.children?`, `Json.stored?`, `Json.definitionFields?` — the children that a property
  has, what it holds with one more, and the fields of a definition;
* `insertChild_eq` — an insertion by what was there before it.
-/

namespace FlowTree

namespace Json

/-! ## Properties with children -/

/-- The fields of a definition; a null one has none yet. -/
def definitionFields? : Json → Option (Fields Json)
  | .null => some []
  | .obj fields => some fields
  | _ => none

/-- The children that a property has, given what it holds: none yet when it is absent or
null. -/
def children? : Option Json → Option (List Json)
  | none | some .null => some []
  | some (.arr items) => some items
  | some _ => none

/-- What a property holds with a child put there, given what it holds before: the child
itself when it can have but one, and else an array with the child in front or behind. -/
def stored? (property : StepsProperty) (value : Json) (mode : ChildMode) (held : Option Json) :
    Option Json :=
  if property.holdsArray then (children? held).map fun items => .arr (withItem mode value items)
  else some value

theorem children?_eq_none_iff {held : Option Json} :
    children? held = none ↔
      ∃ value, held = some value ∧ value ≠ .null ∧ ∀ items, value ≠ .arr items := by
  match held with
  | none => simp [children?]
  | some .null => simp [children?]
  | some (.arr items) => simp [children?]
  | some (.bool _) | some (.num _) | some (.str _) | some (.obj _) => simp [children?]

theorem children?_eq_some_iff {held : Option Json} {items : List Json} :
    children? held = some items ↔
      held = some (.arr items) ∨ items = [] ∧ (held = none ∨ held = some .null) := by
  match held with
  | none => simp [children?, eq_comm]
  | some .null => simp [children?, eq_comm]
  | some (.arr own) => simp [children?]
  | some (.bool _) | some (.num _) | some (.str _) | some (.obj _) => simp [children?]

theorem stored?_eq_none_iff {property : StepsProperty} {value : Json} {mode : ChildMode}
    {held : Option Json} :
    stored? property value mode held = none ↔
      property.holdsArray = true ∧ children? held = none := by
  cases h : property.holdsArray <;> simp [stored?, h]

theorem definitionFields?_eq_none_iff {definition : Json} :
    definitionFields? definition = none ↔
      definition ≠ .null ∧ ∀ fields, definition ≠ .obj fields := by
  cases definition <;> simp [definitionFields?]

/-- Only an object has fields to be found. -/
theorem eq_obj_of_get? {definition value : Json} {fields : Fields Json} {key : String}
    (hf : definitionFields? definition = some fields)
    (hk : Fields.get? key fields = some value) : ∃ own, definition = .obj own := by
  cases definition with
  | null =>
      obtain rfl := Option.some.inj hf
      contradiction
  | obj own => exact ⟨own, rfl⟩
  | bool | num | str | arr => contradiction

/-! ## The steps of an insertion -/

section

variable {doc node : Json} {steps : List Segment}

theorem editNode_of_get? (h : get? steps doc = some node) (edit : Json → Edited) :
    doc.editNode steps edit =
      ⟨overwrite steps (edit node).document doc, (edit node).verdict⟩ := by
  rw [editNode, h]

theorem editNode_of_get?_eq_none (h : get? steps doc = none) (edit : Json → Edited) :
    doc.editNode steps edit = .skipped doc := by
  rw [editNode, h]

end

section

variable {catalog : Catalog} {processor property : String} {declared : StepsProperty}
  {fields : Fields Json} (value : Json) (mode : ChildMode) (refusal : EditError)

theorem pushInto_eq (slot : Json) :
    pushInto value mode refusal slot =
      match children? (some slot) with
      | some items => .applied (.arr (withItem mode value items))
      | none => .refused slot refusal := by
  cases slot <;> rfl

/-- The child goes into what the property holds, when it has several. -/
theorem insertUnder_of_get? {kind : StepsKind} {slot : Json} (hk : kind ≠ .singleClause)
    (h : Fields.get? property fields = some slot) :
    insertUnder kind property value mode refusal fields =
      ⟨.obj (Fields.put property (pushInto value mode refusal slot).document fields),
        (pushInto value mode refusal slot).verdict⟩ := by
  have hslot : get? [.name property] (.obj fields) = some slot := by
    rw [get?_cons, step?, h]
    rfl
  rw [insertUnder, if_neg hk, Fields.orPut_of_get? h, editNode_of_get? hslot]
  simp only [overwrite, step?, h, putStep]

/-- Where there is nothing the child goes into an array of its own. -/
theorem insertUnder_of_absent {kind : StepsKind} (hk : kind ≠ .singleClause)
    (h : Fields.get? property fields = none) :
    insertUnder kind property value mode refusal fields =
      .applied (.obj (Fields.put property (.arr (withItem mode value [])) fields)) := by
  have hslot : Fields.get? property (Fields.put property (.arr []) fields) = some (.arr []) :=
    Fields.get?_put_self property _ fields
  have hentered := insertUnder_of_get? value mode refusal hk hslot
  rw [insertUnder, if_neg hk, Fields.orPut_of_get? hslot, Fields.put_put_self] at hentered
  rw [insertUnder, if_neg hk, Fields.orPut_of_absent h, hentered]
  rfl

/-- An array that is entered for a child takes it: behind this write no exit is taken. -/
theorem insertUnder_applied_of_absent (kind : StepsKind)
    (h : Fields.get? property fields = none) :
    (insertUnder kind property value mode refusal fields).verdict = .done .applied := by
  by_cases hk : kind = .singleClause
  · rw [insertUnder, if_pos hk, Edited.verdict_applied]
  · rw [insertUnder_of_absent value mode refusal hk h, Edited.verdict_applied]

/-- An object that is put in the place of null takes the child: behind this write, too, no exit
is taken. -/
theorem insertInto_applied_of_null
    (hd : catalog.stepsProperty? processor property = some declared) :
    (insertInto catalog processor property value mode refusal .null).verdict =
      .done .applied := by
  rw [insertInto, hd]
  exact insertUnder_applied_of_absent value mode refusal declared.kind (Fields.get?_nil property)

/-- A child under a property, by what this holds before. -/
theorem insertUnder_eq :
    insertUnder declared.kind property value mode refusal fields =
      match stored? declared value mode (Fields.get? property fields) with
      | some new => .applied (.obj (Fields.put property new fields))
      | none => .refused (.obj fields) refusal := by
  by_cases hk : declared.kind = .singleClause
  · rw [insertUnder, if_pos hk]
    simp [stored?, StepsProperty.holdsArray, hk]
  · have harray : declared.holdsArray = true := by
      cases hkind : declared.kind <;> simp_all [StepsProperty.holdsArray]
    rw [stored?, if_pos harray]
    cases hslot : Fields.get? property fields with
    | none => exact insertUnder_of_absent value mode refusal hk hslot
    | some slot =>
        rw [insertUnder_of_get? value mode refusal hk hslot, pushInto_eq]
        cases children? (some slot) with
        | some items => rfl
        | none =>
            simp only [Edited.refused, Option.map_none, Fields.put_of_get? hslot]

/-- A child in a definition, by what this is before. -/
theorem insertInto_eq (target : Json) :
    insertInto catalog processor property value mode refusal target =
      match catalog.stepsProperty? processor property with
      | none => .refused target (.unknownStepsProperty processor property)
      | some declared =>
        match definitionFields? target with
        | none => .skipped target
        | some fields =>
          match stored? declared value mode (Fields.get? property fields) with
          | none => .refused target refusal
          | some new => .applied (.obj (Fields.put property new fields)) := by
  rw [insertInto]
  cases catalog.stepsProperty? processor property with
  | none => rfl
  | some declared =>
      cases target with
      | bool | num | str | arr => rfl
      | obj fields =>
          simp only [orPut, definitionFields?, insertUnder_eq]
          cases stored? declared value mode (Fields.get? property fields) <;> rfl
      | null =>
          simp only [orPut, definitionFields?, insertUnder_eq, Fields.get?_nil]
          cases hs : stored? declared value mode none with
          | some new => rfl
          | none => exact absurd (stored?_eq_none_iff.1 hs).2 (by simp [children?])

end

/-- **Insertion in place.** An insertion that is skipped or refused has written nothing, and
one that is carried out has written the property with the child in it. -/
theorem insertChild_eq (doc : Json) (catalog : Catalog) (path : Path)
    (processor property : String) (value : Json) (mode : ChildMode) :
    doc.insertChild catalog path processor property value mode =
      match doc.resolve path with
      | none => .skipped doc
      | some target =>
        match catalog.stepsProperty? processor property with
        | none => .refused doc (.unknownStepsProperty processor property)
        | some declared =>
          match definitionFields? target with
          | none => .skipped doc
          | some fields =>
            match stored? declared value mode (Fields.get? property fields) with
            | none => .refused doc (.notAnArray (path.child property))
            | some new =>
              .applied (overwrite path.segments (.obj (Fields.put property new fields)) doc) := by
  rw [insertChild]
  cases hr : doc.resolve path with
  | none => exact editNode_of_get?_eq_none hr _
  | some target =>
      have hself : overwrite path.segments target doc = doc := overwrite_of_get? hr
      rw [editNode_of_get? hr, insertInto_eq]
      -- an exit leaves the target, and the target put back leaves the document
      cases catalog.stepsProperty? processor property with
      | none => simp only [Edited.refused, hself]
      | some declared =>
          cases hf : definitionFields? target with
          | none => simp only [hf, Edited.skipped, hself]
          | some fields =>
              cases hs : stored? declared value mode (Fields.get? property fields) with
              | none => simp only [hf, hs, Edited.refused, hself]
              | some new => simp only [hf, hs, Edited.applied]

end Json

end FlowTree
