import FlowTree.Expression.Basic
import FlowTree.Record.Catalog

/-!
# FlowTree.Record.Expression

Languages and expressions as JSON.

* `Languages.ofString` — the registry of a list of languages;
* `Expression.ofText?` — an expression read from a record.
-/

namespace FlowTree

open Record

namespace Language

/-- A language read from a record. -/
def ofText? (text : JsonText) : Option Language := do
  match ← slots? ["id", "modelName", "title", "description"] 3 text with
  | [id, modelName, title, description] =>
    return ⟨← required string? id, ← required string? modelName, ← required string? title,
      ← optional string? description⟩
  | _ => none

/-- A language as a record. -/
def toJson (l : Language) : Json :=
  .obj [ ("id", .str l.id), ("modelName", .str l.modelName), ("title", .str l.title),
    ("description", stringOrNull l.description) ]

/-- Whether a language can be found under its id and its model name. -/
def isNamed (l : Language) : Bool := !l.id.isEmpty && !l.modelName.isEmpty

end Language

/-- The registry of the list of languages in a text; every language has an id and a
model name. -/
def Languages.ofString (text : String) : Except CatalogError Languages :=
  match (JsonText.ofString? text).bind (listOf Language.ofText?) with
  | none => .error .malformed
  | some languages =>
    match languages.find? (!·.isNamed) with
    | some nameless => .error (.namelessLanguage nameless.title)
    | none => .ok (.ofList languages)

namespace Expression

/-- The payload of an expression that is a record: the record is one of the
containers around it. -/
def modelOfText? (text : JsonText) : Option Json :=
  if text.depth < Json.deepest then text.value? else none

/-- An expression read from a record. -/
def ofText? (text : JsonText) : Option Expression := do
  match ← slots? ["language", "model"] 2 text with
  | [language, model] =>
    return ⟨← optional string? language, ← optional modelOfText? model⟩
  | _ => none

end Expression

end FlowTree
