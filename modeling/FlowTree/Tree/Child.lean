import FlowTree.Catalog.Basic
import FlowTree.Tree.Splice

/-!
# FlowTree.Tree.Child

Inserting a child step into a steps property of a processor.

The edit is made in place: what it needs on its way to the child is written before it is
known that the child fits in, and an edit that is given up leaves what it has written.

* `Json.editNode` — edits a node where it stands in a document;
* `Json.pushInto`, `Json.insertUnder`, `Json.insertInto` — a child put into an array, under
  a property of an object, and into a definition;
* `Json.insertChild` — the same at a path.
-/

namespace FlowTree

/-- Where a child goes among those of its property. -/
inductive ChildMode where
  | first
  | append
  deriving DecidableEq, Repr

namespace Json

/-- Items with a child put in front or behind. -/
def withItem (mode : ChildMode) (value : Json) (items : List Json) : List Json :=
  match mode with
  | .first => value :: items
  | .append => items ++ [value]

/-- Edits the node that steps lead to.  The document has the node as the edit leaves it,
whatever the edit comes to. -/
def editNode (doc : Json) (steps : List Segment) (edit : Json → Edited) : Edited :=
  match doc.get? steps with
  | none => .skipped doc
  | some node => ⟨overwrite steps (edit node).document doc, (edit node).verdict⟩

/-- A node, or the value that is put in its place when it is null. -/
def orPut (node value : Json) : Json :=
  match node with
  | .null => value
  | node => node

/-- Puts a child into an array.  Null becomes the empty array first; anything else has no
place for a child. -/
def pushInto (value : Json) (mode : ChildMode) (refusal : EditError) (slot : Json) : Edited :=
  match slot.orPut (.arr []) with
  | .arr items => .applied (.arr (withItem mode value items))
  | other => .refused other refusal

/-- Puts a child under a property of an object.  A single clause takes the place of an earlier
one.  For the others an absent property is entered as an empty array first, and the child
goes into what the property holds. -/
def insertUnder (kind : StepsKind) (property : String) (value : Json) (mode : ChildMode)
    (refusal : EditError) (fields : Fields Json) : Edited :=
  if kind = .singleClause then .applied (.obj (fields.put property value))
  else
    editNode (.obj (fields.orPut property (.arr []))) [.name property] (pushInto value mode refusal)

/-- Puts a child into the definition of a processor.  Null becomes the empty object first. -/
def insertInto (catalog : Catalog) (processor property : String) (value : Json)
    (mode : ChildMode) (refusal : EditError) (target : Json) : Edited :=
  match catalog.stepsProperty? processor property with
  | none => .refused target (.unknownStepsProperty processor property)
  | some declared =>
    match target.orPut (.obj []) with
    | .obj fields => insertUnder declared.kind property value mode refusal fields
    | other => .skipped other

/-- Inserts a child into a steps property of the processor whose definition is at a path. -/
def insertChild (doc : Json) (catalog : Catalog) (path : Path) (processor property : String)
    (value : Json) (mode : ChildMode) : Edited :=
  doc.editNode path.segments
    (insertInto catalog processor property value mode (.notAnArray (path.child property)))

end Json

end FlowTree
