import FlowTree.Json.Numeral

/-!
# FlowTree.Json.Text

JSON texts as they are written, before they are read as values.

A text keeps repeated keys, numerals of any size and strings with an unpaired
surrogate escape; which of these are faults depends on who reads the text.
`JsonText.value?` reads a text as a value and finds the faults everywhere;
the readers of `FlowTree.Record` pass over the parts that they do not know.

* `JsonText.depth` — how deep containers are nested;
* `JsonText.value?` — the value of a text, a repeated key keeping its first place
  and its last value.
-/

namespace FlowTree

/-- A JSON text.  A string is `none` when an escape in it names half of a
surrogate pair without the other half. -/
inductive JsonText where
  | null
  | bool (value : Bool)
  | num (numeral : Numeral)
  | str (text : Option String)
  | arr (items : List JsonText)
  | obj (fields : List (Option String × JsonText))
  deriving Repr, Inhabited

namespace JsonText

mutual

/-- The number of containers around the innermost one, itself counted. -/
def depth : JsonText → Nat
  | .arr items => depthOfItems items + 1
  | .obj fields => depthOfFields fields + 1
  | _ => 0

/-- The depth of the deepest item. -/
def depthOfItems : List JsonText → Nat
  | [] => 0
  | item :: rest => max item.depth (depthOfItems rest)

/-- The depth of the deepest field. -/
def depthOfFields : List (Option String × JsonText) → Nat
  | [] => 0
  | (_, item) :: rest => max item.depth (depthOfFields rest)

end

mutual

/-- The value of a text; `none` when a string has an unpaired surrogate or a
number is beyond every finite one. -/
def value? : JsonText → Option Json
  | .null => some .null
  | .bool value => some (.bool value)
  | .num numeral => numeral.number?.map .num
  | .str text => text.map .str
  | .arr items => (valuesOfItems? items).map .arr
  | .obj fields => (valuesOfFields? fields).map fun pairs => .obj (Fields.ofPairs pairs)

/-- The values of items. -/
def valuesOfItems? : List JsonText → Option (List Json)
  | [] => some []
  | item :: rest => do
    let value ← item.value?
    let values ← valuesOfItems? rest
    return value :: values

/-- The keys and values of fields, as they are written. -/
def valuesOfFields? : List (Option String × JsonText) → Option (List (String × Json))
  | [] => some []
  | (key, item) :: rest => do
    let key ← key
    let value ← item.value?
    let pairs ← valuesOfFields? rest
    return (key, value) :: pairs

end

end JsonText

end FlowTree
