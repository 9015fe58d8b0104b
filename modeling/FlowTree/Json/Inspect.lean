import FlowTree.Json.Value
import FlowTree.Json.Numeral
import FlowTree.Text.Quoted

/-!
# FlowTree.Json.Inspect

JSON values with their kinds spelled out, for people.
-/

namespace FlowTree

namespace Json

mutual

/-- A value with the kinds of its parts. -/
def inspect : Json → String
  | .null => "Null"
  | .bool true => "Bool(true)"
  | .bool false => "Bool(false)"
  | .num value => "Number(" ++ value.render ++ ")"
  | .str text => "String(" ++ Quoted.text text ++ ")"
  | .arr items => "Array [" ++ ", ".intercalate (inspectItems items) ++ "]"
  | .obj fields => "Object \x7b" ++ ", ".intercalate (inspectFields fields) ++ "\x7d"

/-- Items with the kinds of their parts. -/
def inspectItems : List Json → List String
  | [] => []
  | item :: rest => inspect item :: inspectItems rest

/-- Fields with the kinds of their parts. -/
def inspectFields : List (String × Json) → List String
  | [] => []
  | (key, item) :: rest => (Quoted.text key ++ ": " ++ inspect item) :: inspectFields rest

end

end Json

end FlowTree
