import FlowTree.Graph.Basic
import FlowTree.Offer
import FlowTree.Record.Basic

/-!
# FlowTree.Record.Editor

Paths, kinds, offers and graphs as JSON.
-/

namespace FlowTree

open Record

/-! ## Paths and kinds -/

/-- A path read from its text. -/
def Path.ofText? (text : JsonText) : Option Path := do
  match Path.parse (← string? text) with
  | .ok path => return path
  | .error _ => none

/-- A kind of entity read by name. -/
def EntityKind.ofText? : JsonText → Option EntityKind :=
  oneOf (EntityKind.all.map fun kind => (kind.name, kind))

/-- A kind of entity as its name. -/
def EntityKind.toJson (kind : EntityKind) : Json := .str kind.name

/-- The name of a role. -/
def PathRole.name : PathRole → String
  | .root => "Root"
  | .interior => "Interior"

/-- A role read by name. -/
def PathRole.ofText? : JsonText → Option PathRole :=
  oneOf ([PathRole.root, .interior].map fun role => (role.name, role))

/-- The name of a kind of card. -/
def CardKind.name : CardKind → String
  | .entity => "entity"
  | .processor => "processor"
  | .component => "component"
  | .kamelet => "kamelet"

/-! ## Offers -/

namespace Offers

/-- Offers read from a record. -/
def ofText? (text : JsonText) : Option Offers := do
  match ← (← slots? (flowOnly.named.map (·.1)) 8 text).mapM (required flag?) with
  | [previousStep, nextStep, children, specialChildren, replaceStep, removeStep, removeFlow,
      disable] =>
    return ⟨previousStep, nextStep, children, specialChildren, replaceStep, removeStep,
      removeFlow, disable⟩
  | _ => none

/-- Offers as a record. -/
def toJson (o : Offers) : Json := .obj (o.named.map fun (name, offered) => (name, .bool offered))

end Offers

/-! ## Graphs -/

/-- A node as a record. -/
def Node.toJson (n : Node) : Json :=
  .obj [ ("id", .str n.id), ("path", .str n.card.path.text),
    ("processorName", .str n.card.processor), ("catalogKind", .str n.card.kind.name),
    ("componentName", stringOrNull n.card.component), ("title", .str n.card.title),
    ("label", .str n.card.label), ("icon", stringOrNull n.card.icon),
    ("isGroup", .bool n.isGroup), ("parent", numberOrNull n.parent),
    ("children", .arr (n.children.map fun i : Nat => .num (.int i))),
    ("previous", numberOrNull n.previous), ("next", numberOrNull n.next) ]

/-- A graph as a record. -/
def Graph.toJson (g : Graph) : Json :=
  .obj [ ("entityId", .str g.entityId), ("entityKind", g.entityKind.toJson),
    ("root", .num (.int g.root)), ("nodes", .arr (g.nodes.map Node.toJson)) ]

end FlowTree
