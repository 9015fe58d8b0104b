import FlowTree.Proofs.Document.Processor
import FlowTree.Proofs.Number.Decimal
import FlowTree.Proofs.Tree.Walk

/-!
# FlowTree.Proofs.Document.FlowId

The id of a flow, given once.

An id is stored as a field of the definition under the root segment.  A definition that is null
gives way to an object, and a missing one is created; any other value takes no fields:

* `idFields?`, `idFields?_eq_some_iff` — the fields that an id is stored among;
* `setId_of_idFields?`, `setId_of_idFields?_eq_none` — what storing one comes to, and what it
  leaves alone (`GainsId`);
* `IsGenerated`, `isGenerated_generatedId` — the ids that are made of a number;
* `ensureId_once` — what asking for the id of any document does, the first time and later.
-/

namespace FlowTree

/-! ## values that take fields -/

namespace Json

variable {value : Json} {fields : Fields Json}

theorem text?_eq_some_iff {text : String} : value.text? = some text ↔ value = .str text := by
  cases value <;> simp [text?]

theorem field?_eq_step? (value : Json) (key : String) :
    value.field? key = step? (.name key) value := by
  cases value <;> rfl

theorem field?_of_definitionFields? (h : definitionFields? value = some fields) (key : String) :
    value.field? key = Fields.get? key fields := by
  cases value with
  | null | obj =>
      rw [← Option.some.inj h]
      rfl
  | bool | num | str | arr => contradiction

theorem definitionFields?_of_field? {key : String} {child : Json}
    (h : value.field? key = some child) :
    ∃ fields, definitionFields? value = some fields ∧ Fields.get? key fields = some child := by
  cases value with
  | obj fields => exact ⟨fields, rfl, h⟩
  | null | bool | num | str | arr => contradiction

/-- Nothing is written under a key of a value that takes no fields. -/
theorem setAt_of_definitionFields?_eq_none (h : definitionFields? value = none) (key : String)
    (rest : List Segment) (written : Json) :
    setAt (.name key :: rest) written value = (value, .skipped) := by
  cases value with
  | null | obj => contradiction
  | bool | num | str | arr => exact setAt_cons_of_not_admits rest written rfl

end Json

namespace Document

open Json

variable {d : Document} {fields : Fields Json} {id : String}

/-! ## storing an id -/

/-- The definition has the id, as a string. -/
def StoresId (d : Document) (id : String) : Prop :=
  ∃ definition, d.definition? = some definition ∧ definition.field? "id" = some (.str id)

/-- The fields that an id is stored among, if it can be: those of an object, none for a
definition that is null or missing. -/
def idFields? (d : Document) : Option (Fields Json) :=
  match d.definition? with
  | some definition => definitionFields? definition
  | none => (definitionFields? d.value).map fun _ => []

theorem id?_eq_some_iff : d.id? = some id ↔ d.StoresId id := by
  simp only [id?, StoresId, Option.bind_eq_bind, Option.bind_eq_some_iff, text?_eq_some_iff,
    exists_eq_right]

theorem id?_eq_none_iff : d.id? = none ↔ ∀ id, ¬ d.StoresId id := by
  simp only [← id?_eq_some_iff, Option.eq_none_iff_forall_ne_some, ne_eq]

/-- The id stands two steps down. -/
theorem segments_id (d : Document) :
    (d.rootPath.child "id").segments = [.name d.root, .name "id"] := rfl

/-- An id is stored in an object below an object, either of them created when null. -/
theorem idFields?_eq_some_iff :
    d.idFields? = some fields ↔
      ∃ roots, definitionFields? d.value = some roots ∧
        definitionFields? ((Fields.get? d.root roots).getD (.obj [])) = some fields := by
  unfold idFields?
  cases hd : d.definition? with
  | some definition =>
      obtain ⟨roots, hroots, hget⟩ := definitionFields?_of_field? hd
      simp [hroots, hget]
  | none =>
      cases hv : definitionFields? d.value with
      | none => simp
      | some roots =>
          have hget : Fields.get? d.root roots = none := by
            rw [← field?_of_definitionFields? hv, ← hd, definition?]
          simp [hget, definitionFields?]

/-- A document that an id was stored in: the other fields of the definition and the values beside
the definition are as they were. -/
structure GainsId (d : Document) (fields : Fields Json) (id : String) (after : Document) :
    Prop where
  root_eq : after.root = d.root
  id?_eq : after.id? = some id
  definition : ∃ written, after.definition? = some (.obj written) ∧
    written.filter (·.1 ≠ "id") = fields.filter (·.1 ≠ "id")
  beside : ∀ key, key ≠ d.root → after.value.field? key = d.value.field? key

/-- An id is stored among the fields of the definition. -/
theorem setId_of_idFields? (h : d.idFields? = some fields) (id : String) :
    ∃ after, d.setId id = (after, .applied) ∧ d.GainsId fields id after := by
  obtain ⟨roots, hroots, hfields⟩ := idFields?_eq_some_iff.1 h
  let written := Fields.put "id" (.str id) fields
  have hinner : setAt [.name "id"] (.str id) ((Fields.get? d.root roots).getD (.obj [])) =
      (.obj written, .applied) := setAt_cons_name (opened_of_definitionFields? hfields "id")
  have hset : d.setId id = (⟨.obj (Fields.put d.root (.obj written) roots), d.root⟩, .applied) := by
    rw [setId, Document.set, Json.set, segments_id,
      setAt_cons_name (opened_of_definitionFields? hroots d.root), placeholder, containerFor, hinner]
  refine ⟨_, hset, rfl, id?_eq_some_iff.2 ⟨.obj written, ?_, ?_⟩, ⟨written, ?_, ?_⟩, ?_⟩
  · exact Fields.get?_put_self _ _ _
  · exact Fields.get?_put_self _ _ _
  · exact Fields.get?_put_self _ _ _
  · exact @Fields.filter_put _ (· ≠ "id") "id" (by simp) (.str id) fields
  · intro key hkey
    rw [field?_of_definitionFields? hroots]
    exact Fields.get?_put_of_ne hkey.symm _ _

/-- Where there are no fields to store it among, nothing is written. -/
theorem setId_of_idFields?_eq_none (h : d.idFields? = none) (id : String) :
    d.setId id = (d, .skipped) := by
  have hset : setAt [.name d.root, .name "id"] (.str id) d.value = (d.value, .skipped) := by
    cases hd : d.definition? with
    | none =>
        have hv : definitionFields? d.value = none := by simpa [idFields?, hd] using h
        exact setAt_of_definitionFields?_eq_none hv _ _ _
    | some definition =>
        have hnone : definitionFields? definition = none := by simpa [idFields?, hd] using h
        have hstep : step? (.name d.root) d.value = some definition := by
          rw [← field?_eq_step?]
          exact hd
        rw [setAt_cons_of_step? _ _ hstep, setAt_of_definitionFields?_eq_none hnone,
          putIn_of_step? hstep]
  rw [setId, Document.set, Json.set, segments_id, hset]

/-! ## the id that is made -/

/-- The id made of a number: the name of the kind, a dash and the number in four digits. -/
def IsGenerated (kind : EntityKind) (draw : Nat) (id : String) : Prop :=
  ∃ digits, Decimal.Padded 4 draw digits ∧ id = kind.idStem ++ "-" ++ String.ofList digits

theorem isGenerated_generatedId (kind : EntityKind) {draw : Nat} (h : draw < 10000) :
    IsGenerated kind draw (generatedId kind draw) :=
  ⟨_, Decimal.padded_replicate_append (by decide) h, rfl⟩

theorem ensureId_of_id? (h : d.id? = some id) (draw : Nat) : d.ensureId draw = (d, some id) := by
  rw [ensureId, h]

theorem ensureId_of_setId {after : Document} {outcome : Outcome} {draw : Nat} (h : d.id? = none)
    (hset : d.setId (generatedId d.kind draw) = (after, outcome)) :
    d.ensureId draw =
      (after, if outcome = .applied then some (generatedId d.kind draw) else none) := by
  simp only [ensureId, h, hset]

/-- **An id, given once.** Asked for the id of any document, with any number below ten thousand
drawn,

* a document whose definition has a string for an id answers with it and stays as it is;
* any other one whose definition is an object, null or missing takes the id that is made of its
  kind and the four digits of the number.  Nothing else of the document is changed, and from then
  on it answers with this id and stays as it is, whatever is drawn;
* any other one answers with none and stays as it is. -/
theorem ensureId_once (d : Document) {draw : Nat} (hdraw : draw < 10000) :
    (∀ id, d.StoresId id → d.ensureId draw = (d, some id)) ∧
    ((∀ id, ¬ d.StoresId id) →
      (∀ fields, d.idFields? = some fields →
        ∃ after id, d.ensureId draw = (after, some id) ∧ IsGenerated d.kind draw id ∧
          d.GainsId fields id after ∧ ∀ later, after.ensureId later = (after, some id)) ∧
      (d.idFields? = none → d.ensureId draw = (d, none))) := by
  refine ⟨fun id hid => ensureId_of_id? (id?_eq_some_iff.2 hid) draw, fun hnone => ?_⟩
  have hid := id?_eq_none_iff.2 hnone
  refine ⟨fun fields hfields => ?_, fun hfields => ?_⟩
  · obtain ⟨after, hset, hgains⟩ := setId_of_idFields? hfields (generatedId d.kind draw)
    exact ⟨after, generatedId d.kind draw, ensureId_of_setId hid hset,
      isGenerated_generatedId d.kind hdraw, hgains, ensureId_of_id? hgains.id?_eq⟩
  · exact ensureId_of_setId hid (setId_of_idFields?_eq_none hfields _)

/-- An id that is no string gives way to one with a zero in front, which a second call keeps. -/
theorem ensureId_once_padded :
    let d : Document := ⟨.obj [("onException", .obj [("id", .null), ("steps", .arr [])])],
      "onException"⟩
    42 < 10000 ∧ (∀ id, ¬ d.StoresId id) ∧
      ∃ after, d.ensureId 42 = (after, some "onException-0042") ∧
        after.id? = some "onException-0042" ∧
        after.ensureId 9999 = (after, some "onException-0042") := by
  intro d
  have hnone : ∀ id, ¬ d.StoresId id := id?_eq_none_iff.1 rfl
  obtain ⟨hobject, -⟩ := (ensureId_once d (by decide : 42 < 10000)).2 hnone
  obtain ⟨after, id, hensure, -, hgains, hlater⟩ :=
    hobject [("id", .null), ("steps", .arr [])] rfl
  have hid : id = "onException-0042" := by
    have hsnd := congrArg Prod.snd hensure
    exact (Option.some.inj hsnd).symm
  subst hid
  exact ⟨by decide, hnone, after, hensure, hgains.id?_eq, hlater 9999⟩

end Document

end FlowTree
