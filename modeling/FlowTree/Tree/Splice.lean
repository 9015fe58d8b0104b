import FlowTree.Tree.Edit

/-!
# FlowTree.Tree.Splice

Inserting beside, replacing and removing elements of arrays and properties of
objects.

* `Json.insertAdjacent` — before, after or in place of an element;
* `Json.replace` — an element of an array, or any other node that is there;
* `Json.remove` — an element, a property, or the element that a property is all of.
-/

namespace FlowTree

/-- Where a value goes relative to an element. -/
inductive AdjacentMode where
  | before
  | after
  | replace
  deriving DecidableEq, Repr

namespace Json

/-! ## Arrays and objects -/

/-- Items with a value put beside, or in place of, one of them. -/
def spliceItems (mode : AdjacentMode) (i : Nat) (value : Json) (items : List Json) : List Json :=
  match mode with
  | .before => items.take i ++ value :: items.drop i
  | .after => items.take (i + 1) ++ value :: items.drop (i + 1)
  | .replace => items.set i value

/-- An array with a value put beside, or in place of, one of its elements. -/
def spliceIn (mode : AdjacentMode) (i : Nat) (value : Json) : Json → Option Json
  | .arr items => if i < items.length then some (.arr (spliceItems mode i value items)) else none
  | _ => none

/-- An array without one of its elements. -/
def spliceOut (i : Nat) : Json → Option Json
  | .arr items => if i < items.length then some (.arr (items.eraseIdx i)) else none
  | _ => none

/-- An object without one of its properties. -/
def dropProperty (key : String) : Json → Option Json
  | .obj fields => if Fields.has key fields then some (.obj (Fields.drop key fields)) else none
  | _ => none

/-- An array without a property of one of its elements.  An element that is
nothing but this property, a step holder, goes as a whole. -/
def spliceOutProperty (i : Nat) (key : String) : Json → Option Json
  | .arr items =>
    match items[i]? with
    | some (.obj fields) =>
      if fields.length = 1 ∧ Fields.has key fields then some (.arr (items.eraseIdx i))
      else (dropProperty key (.obj fields)).map fun element => .arr (items.set i element)
    | _ => none
  | _ => none

/-! ## Edits by path -/

/-- Puts a value beside, or in place of, the array element that a path addresses. -/
def insertAdjacent (doc : Json) (path : Path) (value : Json) (mode : AdjacentMode) : Edited :=
  match path.owningArray with
  | none => .refused doc (.unsupportedTail path)
  | some (owner, i) => doc.editAt owner (spliceIn mode i value)

/-- Puts a value in place of the array element that a path addresses, or of the
node at the path when it addresses no element. -/
def replace (doc : Json) (path : Path) (value : Json) : Edited :=
  if path.owningArray.isSome then doc.insertAdjacent path value .replace
  else doc.editAt path fun _ => some value

/-- Removes the node at a path.  The root of a document cannot be removed. -/
def remove (doc : Json) (path : Path) : Edited :=
  match path.tail, path.last with
  | .arrayElement i, _ => doc.editAt (path.ancestor 1) (spliceOut i)
  | .indexedProperty i, .name key => doc.editAt (path.ancestor 2) (spliceOutProperty i key)
  | .objectProperty, .name key => doc.editAt (path.ancestor 1) (dropProperty key)
  | _, _ => .refused doc (.rootRemoval path)

/-! ## Equations -/

theorem spliceItems_before (i : Nat) (value : Json) (items : List Json) :
    spliceItems .before i value items = items.take i ++ value :: items.drop i := rfl

theorem spliceItems_after (i : Nat) (value : Json) (items : List Json) :
    spliceItems .after i value items = items.take (i + 1) ++ value :: items.drop (i + 1) := rfl

theorem spliceItems_replace (i : Nat) (value : Json) (items : List Json) :
    spliceItems .replace i value items = items.set i value := rfl

end Json

end FlowTree
