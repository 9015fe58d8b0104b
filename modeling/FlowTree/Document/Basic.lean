import FlowTree.Document.Kind
import FlowTree.Json.Reader
import FlowTree.Text.Quoted
import FlowTree.Tree.Child
import FlowTree.Tree.Clip
import FlowTree.Tree.Move

/-!
# FlowTree.Document.Basic

Flow documents: a JSON tree under a single root segment.

* `Document.ofJson` — the document of a value, or why it is none;
* `Document.id?`, `Document.label`, `Document.ensureId` — what the root
  definition says of the flow;
* `Document.processorAt?` — the processor that a path addresses, by its own path
  or by that of the element that holds it;
* the edits of `FlowTree.Tree`, on the value of a document.
-/

namespace FlowTree

/-- Why a value is no flow document. -/
inductive DocumentError where
  | malformed
  | notAnObject
  | missingRootSegment
  | multipleRootSegments (keys : List String)
  deriving DecidableEq, Repr

/-- The wording of a fault; that of a malformed text is up to its reader. -/
def DocumentError.message : DocumentError → String
  | .malformed => "Failed to parse flow document JSON"
  | .notAnObject => "Flow document root must be an object"
  | .missingRootSegment => "Flow document has no root segment"
  | .multipleRootSegments keys =>
    "Flow document has more than one root segment: " ++ Quoted.list keys

/-- A flow document: its value and the root segment it was loaded with. -/
structure Document where
  value : Json
  root : String
  deriving DecidableEq

namespace Document

/-! ## Loading -/

/-- The document of a value: an object with exactly one key. -/
def ofJson (value : Json) : Except DocumentError Document :=
  match value with
  | .obj [(root, _)] => .ok ⟨value, root⟩
  | .obj [] => .error .missingRootSegment
  | .obj fields => .error (.multipleRootSegments (Fields.keys fields))
  | _ => .error .notAnObject

/-- The document of a text. -/
def ofString (text : String) : Except DocumentError Document :=
  match Json.ofString? text with
  | some value => ofJson value
  | none => .error .malformed

/-- A new route, which starts from a timer and logs the message body. -/
def newRoute (id : String) : Document :=
  let log : Json := .obj [("log", .obj [("message", .str "$\x7bbody\x7d")])]
  let entry : Json := .obj
    [ ("uri", .str "timer:template"),
      ("parameters", .obj [("period", .str "1000")]),
      ("steps", .arr [log]) ]
  ⟨.obj [("route", .obj [("id", .str id), ("from", entry)])], "route"⟩

/-! ## The root definition -/

/-- The kind that the root segment names. -/
def kind (d : Document) : EntityKind := .ofRootSegment d.root

/-- The path of the root. -/
def rootPath (d : Document) : Path := .root d.root

/-- The definition under the root segment. -/
def definition? (d : Document) : Option Json := d.value.field? d.root

/-- The id of the flow. -/
def id? (d : Document) : Option String := do (← (← d.definition?).field? "id").text?

/-- The label of the flow: its description, else its id, else the root segment. -/
def label (d : Document) : String :=
  let description := do (← (← d.definition?).field? "description").text?
  (description.or d.id?).getD d.root

/-- Whether a path is that of the root. -/
def isRootPath (d : Document) (path : Path) : Bool := path.segments == [.name d.root]

/-! ## Reading -/

/-- The node at a path. -/
def resolve (d : Document) (path : Path) : Option Json := d.value.resolve path

/-- A copy of the step at a path. -/
def copy (d : Document) (path : Path) : Option Clip := d.value.copy path

/-- The processor that a path addresses, with the path of its definition.  The
path of a step holder addresses the step in it; an element of another array is
named for the array. -/
def processorAt? (d : Document) (path : Path) : Option (Path × String) := do
  let value ← d.resolve path
  match path.last with
  | .name key => return (path, key)
  | .index _ =>
    let array ← (← path.parent).lastName?
    match value with
    | .obj [(key, _)] => return if array = "steps" then (path.child key, key) else (path, array)
    | _ => return (path, array)

/-! ## Edits -/

/-- A document after an edit of its value. -/
def ofEdited (d : Document) (edited : Edited) : Document × Verdict :=
  ({ d with value := edited.document }, edited.verdict)

/-- Writes a value at a path, with the containers on the way. -/
def set (d : Document) (path : Path) (value : Json) : Document × Outcome :=
  let (value, outcome) := d.value.set path value
  ({ d with value }, outcome)

/-- Writes the id of the flow. -/
def setId (d : Document) (id : String) : Document × Outcome :=
  d.set (d.rootPath.child "id") (.str id)

/-- The id made of a kind and a number below ten thousand, of four digits. -/
def generatedId (kind : EntityKind) (draw : Nat) : String :=
  let digits := Nat.toDigits 10 draw
  kind.idStem ++ "-" ++ String.ofList (List.replicate (4 - digits.length) '0' ++ digits)

/-- The id of the flow, or one made with the number drawn when there is none;
`none` when it cannot be stored, because the root definition is no object. -/
def ensureId (d : Document) (draw : Nat) : Document × Option String :=
  match d.id? with
  | some id => (d, some id)
  | none =>
    let id := generatedId d.kind draw
    let (d, outcome) := d.setId id
    (d, if outcome = .applied then some id else none)

/-- Inserts a child into a steps property of the processor that a path addresses. -/
def insertChild (d : Document) (catalog : Catalog) (path : Path) (property : String)
    (value : Json) (mode : ChildMode) : Document × Verdict :=
  match d.processorAt? path with
  | some (path, processor) =>
    d.ofEdited (d.value.insertChild catalog path processor property value mode)
  | none => (d, .done .skipped)

/-- Puts a value beside, or in place of, an array element. -/
def insertAdjacent (d : Document) (path : Path) (value : Json) (mode : AdjacentMode) :
    Document × Verdict :=
  d.ofEdited (d.value.insertAdjacent path value mode)

/-- Puts a value in place of a node. -/
def replace (d : Document) (path : Path) (value : Json) : Document × Verdict :=
  d.ofEdited (d.value.replace path value)

/-- Removes a node. -/
def remove (d : Document) (path : Path) : Document × Verdict := d.ofEdited (d.value.remove path)

/-- Moves a step beside, or in place of, another one. -/
def moveStep (d : Document) (source target : Path) (mode : AdjacentMode) : Document × Verdict :=
  d.ofEdited (d.value.moveStep source target mode)

/-- Puts a copied step beside, or in place of, an array element. -/
def paste (d : Document) (path : Path) (clip : Clip) (mode : AdjacentMode) : Document × Verdict :=
  d.insertAdjacent path clip.holder mode

end Document

end FlowTree
