import FlowTree.Catalog.Basic
import FlowTree.Document.Kind
import FlowTree.Json.Value
import FlowTree.Path.Text

/-!
# FlowTree.Graph.Card

What a node of a graph shows: names, title, label and icon.

A step that talks to an endpoint is presented as the component that the scheme of
its `uri` names; any other step is presented as its processor.
-/

namespace FlowTree

/-- Where the presentation of a node comes from. -/
inductive CardKind where
  | entity
  | processor
  | component
  | kamelet
  deriving DecidableEq, Repr

/-- What a node shows, and the path of the definition it stands for. -/
structure Card where
  path : Path
  processor : String
  kind : CardKind
  component : Option String
  title : String
  label : String
  icon : Option String
  deriving DecidableEq

namespace Card

/-- Processors whose endpoint is given by a `uri`. -/
def endpointProcessors : List String :=
  ["from", "to", "toD", "poll", "wireTap", "enrich", "pollEnrich"]

/-- The `uri` of a definition, which may be nothing but the `uri`. -/
def uri? : Json → Option String
  | .str uri => some uri
  | definition => (definition.field? "uri").bind Json.text?

/-- The scheme of a `uri`: what stands before the first colon, if anything does. -/
def scheme? (uri : String) : Option String :=
  match uri.toList.takeWhile (· ≠ ':') with
  | [] => none
  | scheme => some (String.ofList scheme)

/-- The component that a step talks to. -/
def component? (processor : String) (definition : Json) : Option String :=
  if endpointProcessors.contains processor then (uri? definition).bind scheme? else none

/-- The label that a definition carries: its description or, when it has none, its
id, as long as that is a string. -/
def ownLabel? (definition : Json) : Option String :=
  ((definition.field? "description").or (definition.field? "id")).bind Json.text?

/-- The card of a step. -/
def ofStep (catalog : Catalog) (path : Path) (processor : String) (definition : Json) : Card :=
  let component := component? processor definition
  let entry := (component.bind catalog.component?).map fun e => (e.title, e.icon)
  let entry := entry.or ((catalog.processor? processor).map fun e => (e.title, e.icon))
  { path
    processor
    kind := match component with
      | some name => if name = "kamelet" then .kamelet else .component
      | none => .processor
    component
    title := (entry.map (·.1)).getD (component.getD processor)
    label := (ownLabel? definition).getD (component.getD processor)
    icon := entry.bind (·.2) }

/-- The card of the root of an entity; the definition may be missing. -/
def ofEntity (catalog : Catalog) (root : String) (kind : EntityKind) (definition : Option Json) :
    Card :=
  { path := .root root
    processor := root
    kind := .entity
    component := none
    title := ((catalog.processor? root).map (·.title)).getD kind.name
    label := (definition.bind ownLabel?).getD root
    icon := none }

end Card

end FlowTree
