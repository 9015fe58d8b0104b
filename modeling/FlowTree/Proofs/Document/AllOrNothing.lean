import FlowTree.Document.Basic
import FlowTree.Proofs.Tree.Child
import FlowTree.Proofs.Tree.Move

/-!
# FlowTree.Proofs.Document.AllOrNothing

Edits of steps are carried out or leave the document as it was.

Most edits look for all that they need before they write anything.  Two write first and
come to an end later.  An insertion of a child puts empty containers on its way, and a
container that it has put takes the child.  A move splices its source out, and then, by the
laws of `FlowTree.Proofs.Tree.Move`, its target is still there, and the insertion that
follows cannot be skipped.

* `Json.allOrNothing_editNode`, `Json.allOrNothing_insertInto` — the steps of an insertion;
* `Json.allOrNothing_moveStep` and its likes — the edits of a JSON document;
* `Document.edits_all_or_nothing` — those of a flow document.
-/

namespace FlowTree

/-- An edit that is not carried out leaves the document as it was. -/
def Edited.AllOrNothing (doc : Json) (edited : Edited) : Prop :=
  edited.verdict ≠ .done .applied → edited.document = doc

namespace Edited

theorem allOrNothing_applied (doc result : Json) : AllOrNothing doc (.applied result) :=
  fun h => absurd rfl h

theorem allOrNothing_skipped (doc : Json) : AllOrNothing doc (.skipped doc) := fun _ => rfl

theorem allOrNothing_refused (doc : Json) (error : EditError) :
    AllOrNothing doc (.refused doc error) := fun _ => rfl

end Edited

namespace Json

open Edited

theorem allOrNothing_editAt (doc : Json) (path : Option Path) (f : Json → Option Json) :
    AllOrNothing doc (doc.editAt path f) := editAt_document_of_skipped

/-! ## Insertion of a child -/

section

variable (value : Json) (mode : ChildMode) (refusal : EditError)

theorem allOrNothing_editNode {doc : Json} {steps : List Segment} {edit : Json → Edited}
    (h : ∀ node, AllOrNothing node (edit node)) : AllOrNothing doc (doc.editNode steps edit) := by
  cases hr : get? steps doc with
  | none =>
      rw [editNode_of_get?_eq_none hr]
      exact allOrNothing_skipped doc
  | some node =>
      rw [editNode_of_get? hr]
      intro hv
      have hleft : (edit node).document = node := h node hv
      rw [hleft, overwrite_of_get? hr]

theorem allOrNothing_pushInto (slot : Json) :
    AllOrNothing slot (pushInto value mode refusal slot) := by
  cases slot with
  | null | arr => exact allOrNothing_applied _ _
  | bool | num | str | obj => exact allOrNothing_refused _ refusal

/-- An array is entered only where there is nothing, and then the child goes into it. -/
theorem allOrNothing_insertUnder (kind : StepsKind) (property : String) (fields : Fields Json) :
    AllOrNothing (.obj fields) (insertUnder kind property value mode refusal fields) := by
  cases hslot : Fields.get? property fields with
  | none => exact fun hv => absurd (insertUnder_applied_of_absent value mode refusal kind hslot) hv
  | some slot =>
      rw [insertUnder, Fields.orPut_of_get? hslot]
      split
      · exact allOrNothing_applied _ _
      · exact allOrNothing_editNode (allOrNothing_pushInto value mode refusal)

/-- An object is put only in the place of null, and then the child goes into it. -/
theorem allOrNothing_insertInto (catalog : Catalog) (processor property : String)
    (target : Json) :
    AllOrNothing target (insertInto catalog processor property value mode refusal target) := by
  cases hd : catalog.stepsProperty? processor property with
  | none =>
      rw [insertInto, hd]
      exact allOrNothing_refused target _
  | some declared =>
      cases target with
      | null => exact fun hv => absurd (insertInto_applied_of_null value mode refusal hd) hv
      | obj fields =>
          rw [insertInto, hd]
          exact allOrNothing_insertUnder value mode refusal declared.kind property fields
      | bool | num | str | arr =>
          rw [insertInto, hd]
          exact allOrNothing_skipped _

end

theorem allOrNothing_insertChild (doc : Json) (catalog : Catalog) (path : Path)
    (processor property : String) (value : Json) (mode : ChildMode) :
    AllOrNothing doc (doc.insertChild catalog path processor property value mode) :=
  allOrNothing_editNode (allOrNothing_insertInto value mode _ catalog processor property)

/-! ## The other edits -/

theorem allOrNothing_insertAdjacent (doc : Json) (path : Path) (value : Json)
    (mode : AdjacentMode) : AllOrNothing doc (doc.insertAdjacent path value mode) := by
  unfold insertAdjacent
  split
  · exact allOrNothing_refused doc _
  · exact allOrNothing_editAt doc _ _

theorem allOrNothing_replace (doc : Json) (path : Path) (value : Json) :
    AllOrNothing doc (doc.replace path value) := by
  unfold replace
  split
  · exact allOrNothing_insertAdjacent doc path value .replace
  · exact allOrNothing_editAt doc _ _

theorem allOrNothing_remove (doc : Json) (path : Path) :
    AllOrNothing doc (doc.remove path) := by
  unfold remove
  split
  · exact allOrNothing_editAt doc _ _
  · exact allOrNothing_editAt doc _ _
  · exact allOrNothing_editAt doc _ _
  · exact allOrNothing_refused doc _

/-- A move that has spliced its source out is carried out. -/
theorem allOrNothing_moveStep (doc : Json) (source target : Path) (mode : AdjacentMode) :
    AllOrNothing doc (doc.moveStep source target mode) := by
  rcases moveStep_cases doc source target mode with
    ⟨error, -, he⟩ | ⟨-, -, he⟩ | ⟨-, -, result, he⟩ <;> rw [he]
  · exact allOrNothing_refused doc error
  · exact allOrNothing_skipped doc
  · exact allOrNothing_applied doc result

end Json

namespace Document

/-- An edit that is not carried out leaves the flow document as it was. -/
def AllOrNothing (d : Document) (edited : Document × Verdict) : Prop :=
  edited.2 ≠ .done .applied → edited.1 = d

theorem allOrNothing_ofEdited {d : Document} {edited : Edited}
    (h : edited.AllOrNothing d.value) : d.AllOrNothing (d.ofEdited edited) := fun hv => by
  rw [ofEdited, h hv]

theorem allOrNothing_insertChild (d : Document) (catalog : Catalog) (path : Path)
    (property : String) (value : Json) (mode : ChildMode) :
    d.AllOrNothing (d.insertChild catalog path property value mode) := by
  unfold insertChild
  split
  · exact allOrNothing_ofEdited (Json.allOrNothing_insertChild _ _ _ _ _ _ _)
  · exact fun _ => rfl

/-- **All or nothing.** Whatever its paths, values and modes, an insertion, a
replacement, a removal or a move that is skipped or refused leaves the document as it
was, the order of fields counted. -/
theorem edits_all_or_nothing (d : Document) (catalog : Catalog) :
    (∀ path property value mode,
      d.AllOrNothing (d.insertChild catalog path property value mode)) ∧
    (∀ path value mode, d.AllOrNothing (d.insertAdjacent path value mode)) ∧
    (∀ path value, d.AllOrNothing (d.replace path value)) ∧
    (∀ path, d.AllOrNothing (d.remove path)) ∧
    ∀ source target mode, d.AllOrNothing (d.moveStep source target mode) :=
  ⟨allOrNothing_insertChild d catalog,
    fun _ _ _ => allOrNothing_ofEdited (Json.allOrNothing_insertAdjacent _ _ _ _),
    fun _ _ => allOrNothing_ofEdited (Json.allOrNothing_replace _ _ _),
    fun _ => allOrNothing_ofEdited (Json.allOrNothing_remove _ _),
    fun _ _ _ => allOrNothing_ofEdited (Json.allOrNothing_moveStep _ _ _ _)⟩

/-- A move into the source's own subtree is refused and leaves the document. -/
theorem edits_all_or_nothing_into_self :
    let d : Document := ⟨.obj [("rest", .arr [.obj [("get", .arr [.null])]])], "rest"⟩
    let source : Path := ⟨[.name "rest", .index 0], by simp⟩
    let target : Path := (source.child "get").elementAt 0
    (d.moveStep source target .after).2 = .refused (.moveIntoSelf source target) ∧
      (d.moveStep source target .after).1 = d := by
  intro d source target
  have hv : (d.moveStep source target .after).2 = .refused (.moveIntoSelf source target) := by
    decide +kernel
  have hne : (d.moveStep source target .after).2 ≠ .done .applied := by
    rw [hv]
    decide
  exact ⟨hv, (edits_all_or_nothing d .empty).2.2.2.2 source target .after hne⟩

end Document

end FlowTree
