import FlowTree.Tree.Lookup

/-!
# FlowTree.Tree.Set

Writing a value at a path, with the containers on the way created as needed.

A missing or null node on the way becomes an object or an array as the next step
asks for; a position equal to the length of an array appends.  Where that would
leave a hole in an array or overwrite a scalar, nothing is written at the path;
containers created before the fault was met stay.

* `Json.setAt` — the document afterwards and whether the value was written;
* `setAt_cons_name`, `setAt_cons_index` — one step of the walk.
-/

namespace FlowTree

/-- What came of an edit that can find nothing to act on. -/
inductive Outcome where
  /-- The document was changed. -/
  | applied
  /-- The path leads nowhere. -/
  | skipped
  deriving DecidableEq, Repr

namespace Json

/-- The empty container that a step can enter. -/
def containerFor : Segment → Json
  | .name _ => .obj []
  | .index _ => .arr []

/-- The empty container that further steps can enter. -/
def placeholder : List Segment → Json
  | s :: _ => containerFor s
  | [] => .obj []

/-- The node that a step enters: a null node gives way to an empty container. -/
def opened (s : Segment) (doc : Json) : Json := if doc.isNull then containerFor s else doc

/-- Items with one of them replaced; the position behind the last one appends. -/
def setOrAppend (items : List Json) (i : Nat) (value : Json) : List Json :=
  if i < items.length then items.set i value else items ++ [value]

/-- Writes a value where steps lead. -/
def setAt : List Segment → Json → Json → Json × Outcome
  | [], value, _ => (value, .applied)
  | s :: rest, value, doc =>
    match s, opened s doc with
    | .name key, .obj fields =>
      let (child, outcome) := setAt rest value ((Fields.get? key fields).getD (placeholder rest))
      (.obj (Fields.put key child fields), outcome)
    | .index i, .arr items =>
      if items.length < i then (.arr items, .skipped)
      else
        let (child, outcome) := setAt rest value (items[i]?.getD (placeholder rest))
        (.arr (setOrAppend items i child), outcome)
    | _, doc => (doc, .skipped)

/-- Writes a value at a path. -/
def set (doc : Json) (path : Path) (value : Json) : Json × Outcome :=
  setAt path.segments value doc

/-! ## Equations -/

@[simp] theorem setAt_nil (value doc : Json) : setAt [] value doc = (value, .applied) := rfl

/-- A key enters an object; what is not there yet starts as a placeholder. -/
theorem setAt_cons_name {key : String} {rest : List Segment} {value doc : Json}
    {fields : Fields Json} (h : opened (.name key) doc = .obj fields) :
    setAt (.name key :: rest) value doc =
      (.obj (Fields.put key
          (setAt rest value ((Fields.get? key fields).getD (placeholder rest))).1 fields),
        (setAt rest value ((Fields.get? key fields).getD (placeholder rest))).2) := by
  simp [setAt, h]

/-- A position enters an array that reaches up to it. -/
theorem setAt_cons_index {i : Nat} {rest : List Segment} {value doc : Json}
    {items : List Json} (h : opened (.index i) doc = .arr items) (hi : i ≤ items.length) :
    setAt (.index i :: rest) value doc =
      (.arr (setOrAppend items i (setAt rest value (items[i]?.getD (placeholder rest))).1),
        (setAt rest value (items[i]?.getD (placeholder rest))).2) := by
  simp [setAt, h, Nat.not_lt.2 hi]

end Json

end FlowTree
