import FlowTree.Expression.Language
import FlowTree.Tree.Set

/-!
# FlowTree.Expression.Basic

Expressions of a holder, in whichever form they are written.

A holder is an object that carries an expression in one of four forms; `simple`
stands for the model name of a language:

```
{ "expression": { "simple": { "expression": text } } }
{ "expression": { "simple": text } }
{ "simple": { "expression": text } }
{ "simple": text }
```

* `Expression.ofHolder` — reads any of them;
* `Expression.write` — writes the first one, and only that one.
-/

namespace FlowTree

/-- An expression: the id of its language, and a payload that is an object. -/
structure Expression where
  language : Option String
  model : Option Json
  deriving DecidableEq

namespace Expression

/-- The key that wraps a language, and that holds a text in a payload. -/
def wrapperKey : String := "expression"

/-- No expression. -/
def empty : Expression := ⟨none, none⟩

/-- A payload as an object: a null one is empty, a scalar or an array is wrapped. -/
def payload : Json → Json
  | .obj fields => .obj fields
  | .null => .obj []
  | value => .obj [(wrapperKey, value)]

/-- The expression of a language with a payload in any form. -/
def of (language : String) (model : Json) : Expression := ⟨some language, some (payload model)⟩

/-- Whether there is no expression. -/
def isEmpty (e : Expression) : Bool := e.language.isNone

/-- The text of an expression, when its payload has one. -/
def text? (e : Expression) : Option String := do (← (← e.model).field? wrapperKey).text?

/-- The expression as a record. -/
def toJson (e : Expression) : Json :=
  .obj [("language", (e.language.map Json.str).getD .null), ("model", e.model.getD .null)]

/-- Whether two expressions hold the same, the order of fields not counted. -/
def alike (a b : Expression) : Bool :=
  a.language == b.language &&
    match a.model, b.model with
    | some x, some y => x.alike y
    | none, none => true
    | _, _ => false

/-! ## Reading -/

/-- The first language of a registry whose model name is among the keys of an
object, with what the object has under that name. -/
def firstNamed (fields : Fields Json) : List Language → Option (String × Json)
  | [] => none
  | l :: rest =>
    match fields.get? l.modelName with
    | some value => some (l.modelName, value)
    | none => firstNamed fields rest

/-- The expression of a model name with a payload; a name that stands for no
language is taken for the id. -/
def ofNamed (languages : Languages) (modelName : String) (value : Json) : Expression :=
  of (((languages.byModelName? modelName).map (·.id)).getD modelName) value

/-- The object under the wrapper key. -/
def wrapped (fields : Fields Json) : Fields Json :=
  match fields.get? wrapperKey with
  | some (.obj inner) => inner
  | _ => []

/-- The expression of a holder.  A language inside the wrapper goes before one
beside it, and among several the one registered first is taken. -/
def ofHolder (languages : Languages) : Json → Expression
  | .obj fields =>
    match (firstNamed (wrapped fields) languages.list).or (firstNamed fields languages.list) with
    | some (modelName, value) => ofNamed languages modelName value
    | none => empty
  | _ => empty

/-! ## Writing -/

/-- The fields of a holder without any language key. -/
def dropLanguages (languages : List Language) (fields : Fields Json) : Fields Json :=
  languages.foldl (fun fields l => fields.drop l.modelName) fields

/-- The language that an id asks for; an empty one asks for none. -/
def chosen? (languages : Languages) (id : Option String) : Option Language :=
  (id.filter (· ≠ "")).bind languages.get?

/-- The fields of a holder with an expression as their only one. -/
def writeFields (languages : Languages) (id : Option String) (model : Json)
    (fields : Fields Json) : Fields Json :=
  let rest := dropLanguages languages.list fields
  match chosen? languages id with
  | some language => rest.put wrapperKey (.obj [(language.modelName, payload model)])
  | none => rest.drop wrapperKey

/-- Writes an expression into a holder; a null holder becomes an object.  Without a
language, or with an unknown one, the holder is left without an expression. -/
def write (languages : Languages) (id : Option String) (model : Json) (holder : Json) :
    Json × Outcome :=
  match holder with
  | .null => (.obj (writeFields languages id model []), .applied)
  | .obj fields => (.obj (writeFields languages id model fields), .applied)
  | holder => (holder, .skipped)

/-! ## Equations -/

@[simp] theorem payload_payload (model : Json) : payload (payload model) = payload model := by
  cases model <;> rfl

end Expression

end FlowTree
