import FlowTree.Json.Reader

/-!
# FlowTree.Record.Basic

Reading records from JSON texts.

A record is written as an object, or as an array of its fields in their order.  In
an object a field stands at most once, and fields of other names are passed over,
whatever they hold; an array has no more items than there are fields.

* `Record.slots?` — what a text has for each field;
* `Record.required`, `Record.optional`, `Record.listOrEmpty` — what a field holds;
* `Record.oneOf` — a name out of a list.
-/

namespace FlowTree

namespace Record

/-- What stands under a name: nothing, or one text; `none` when there are several. -/
def slot? (fields : List (Option String × JsonText)) (name : String) :
    Option (Option JsonText) :=
  match fields.filter fun field => field.1 == some name with
  | [] => some none
  | [(_, text)] => some (some text)
  | _ => none

/-- What a text has for each of the named fields.  An array holds at least the
first `least` of them. -/
def slots? (names : List String) (least : Nat) : JsonText → Option (List (Option JsonText))
  | .obj fields => if fields.all (·.1.isSome) then names.mapM (slot? fields) else none
  | .arr items =>
    if least ≤ items.length ∧ items.length ≤ names.length then
      some (items.map some ++ List.replicate (names.length - items.length) none)
    else none
  | _ => none

/-! ## Fields -/

/-- A field that has to be there. -/
def required {α : Type} (read : JsonText → Option α) (slot : Option JsonText) : Option α :=
  slot.bind read

/-- A field that may be missing or null. -/
def optional {α : Type} (read : JsonText → Option α) : Option JsonText → Option (Option α)
  | none | some .null => some none
  | some text => (read text).map some

/-- A list. -/
def listOf {α : Type} (read : JsonText → Option α) : JsonText → Option (List α)
  | .arr items => items.mapM read
  | _ => none

/-- A list that is empty when the field is missing. -/
def listOrEmpty {α : Type} (read : JsonText → Option α) : Option JsonText → Option (List α)
  | none => some []
  | some text => listOf read text

/-! ## Values -/

/-- A string. -/
def string? : JsonText → Option String
  | .str text => text
  | _ => none

/-- A truth value. -/
def flag? : JsonText → Option Bool
  | .bool value => some value
  | _ => none

/-- A name out of a list, as a string or as the only key of an object, with null
under it. -/
def oneOf {α : Type} (names : List (String × α)) : JsonText → Option α
  | .str (some name) => names.lookup name
  | .obj [(some name, .null)] => names.lookup name
  | _ => none

/-! ## Writing -/

/-- A string or null. -/
def stringOrNull (text : Option String) : Json := (text.map Json.str).getD .null

/-- A number or null. -/
def numberOrNull (n : Option Nat) : Json := (n.map fun n => Json.num (.int n)).getD .null

end Record

end FlowTree
