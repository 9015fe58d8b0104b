import FlowTree.Catalog.Builtin
import FlowTree.Expression.Basic
import FlowTree.Graph.Build
import FlowTree.Offer

/-!
# FlowTree.Editor

An editor: one document under edit, and what is needed besides it.

* `Editor.offers?` — the edits offered at a path;
* `Editor.graph`, `Editor.part?` — the document, or a part of it, as a graph;
* `Editor.expression`, `Editor.writeExpression` — the expression of the holder at
  a path;
* `Editor.perform` — carries out an action, and `Editor.run` a row of them.
-/

namespace FlowTree

/-- What an editor needs besides the document. -/
structure Context where
  catalog : Catalog
  languages : Languages
  mappers : Mappers

namespace Context

/-- The built-in catalog, languages and mappers. -/
def builtin : Context := ⟨.builtin, .builtin, .builtin⟩

/-- How processors are drawn. -/
def scheme (c : Context) : Scheme := ⟨c.catalog, c.mappers⟩

end Context

/-- A document under edit. -/
structure Editor where
  context : Context
  document : Document

/-- An edit with its arguments. -/
inductive Action where
  | set (path : Path) (value : Json)
  | setId (id : String)
  | insertChild (path : Path) (property : String) (value : Json) (mode : ChildMode)
  | insertAdjacent (path : Path) (value : Json) (mode : AdjacentMode)
  | replace (path : Path) (value : Json)
  | remove (path : Path)
  | moveStep (source target : Path) (mode : AdjacentMode)
  | paste (path : Path) (clip : Clip) (mode : AdjacentMode)
  | writeExpression (path : Path) (language : Option String) (model : Json)

namespace Editor

/-! ## Reading -/

/-- The edits offered for the node at a path; `none` where there is no node. -/
def offers? (e : Editor) (path : Path) : Option Offers :=
  let d := e.document
  if d.isRootPath path then
    some (d.kind.rootOffers?.getD (.of e.context.catalog d.root .root))
  else (d.processorAt? path).map fun (_, processor) =>
    .of e.context.catalog processor .interior

/-- The graph of the document. -/
def graph (e : Editor) : Graph := .ofDocument e.context.scheme e.document

/-- The graph of what a path addresses. -/
def part? (e : Editor) (path : Path) : Option Graph :=
  Graph.ofPart? e.context.scheme e.document path

/-- The expression of the holder at a path. -/
def expression (e : Editor) (path : Path) : Expression :=
  ((e.document.resolve path).map (Expression.ofHolder e.context.languages)).getD .empty

/-! ## Writing expressions -/

/-- A document with a null holder at a path, unless there is a node already, and
whether there is one now. -/
def withHolder (d : Document) (path : Path) : Document × Outcome :=
  match d.resolve path with
  | some _ => (d, .applied)
  | none => d.set path .null

/-- Writes an expression into the holder at a path, which is created when the place
for it exists. -/
def writeExpression (languages : Languages) (d : Document) (path : Path)
    (language : Option String) (model : Json) : Document × Outcome :=
  match withHolder d path with
  | (d, .skipped) => (d, .skipped)
  | (d, .applied) =>
    match d.resolve path with
    | some holder =>
      let (holder, outcome) := Expression.write languages language model holder
      ({ d with value := Json.overwrite path.segments holder d.value }, outcome)
    | none => (d, .skipped)

/-! ## Actions -/

/-- A document after an action, with the verdict on it. -/
def act (c : Context) (d : Document) : Action → Document × Verdict
  | .set path value => (d.set path value).map id .done
  | .setId text => (d.setId text).map id .done
  | .insertChild path property value mode => d.insertChild c.catalog path property value mode
  | .insertAdjacent path value mode => d.insertAdjacent path value mode
  | .replace path value => d.replace path value
  | .remove path => d.remove path
  | .moveStep source target mode => d.moveStep source target mode
  | .paste path clip mode => d.paste path clip mode
  | .writeExpression path language model =>
    (writeExpression c.languages d path language model).map id .done

/-- Carries out an action. -/
def perform (e : Editor) (action : Action) : Editor × Verdict :=
  let (document, verdict) := act e.context e.document action
  ({ e with document }, verdict)

/-- Carries out actions one after the other, whatever comes of each. -/
def run (e : Editor) (actions : List Action) : Editor :=
  actions.foldl (fun e action => (e.perform action).1) e

end Editor

end FlowTree
