import FlowTree.Document.Basic
import FlowTree.Graph.Arena
import FlowTree.Graph.Mapper

/-!
# FlowTree.Graph.Build

Building the graph of a document.

A processor is built by its mapper, which is given no more than the path of the
definition and the name of the processor: it creates a node, has the processors
below built in turn, and attaches them.  The root stands for the entity, and what
is built below it depends on the kind: the entry of a route, the clauses of a
route configuration, the steps of a construct that has a branch of its own, and
nothing otherwise.

* `BuildContext.childrenOfProperty` — builds what a steps property holds;
* `Mapper.build` — builds a processor;
* `GraphBuilder.build`, `GraphBuilder.buildPart` — build a document, and the
  processor that a path addresses;
* `Graph.ofDocument`, `Graph.ofPart?` — the graphs that come of it.
-/

namespace FlowTree

/-- A part of the building of a graph.  There is no result when processors are
nested more deeply than a bound allows. -/
abbrev Builder (α : Type) := StateT Arena Option α

/-- What the building of a graph reads. -/
structure BuildContext where
  document : Json
  catalog : Catalog
  entityId : String

namespace BuildContext

/-- The node of the document at a path. -/
def valueAt (c : BuildContext) (path : Path) : Option Json := c.document.resolve path

/-! ## Nodes -/

/-- A node before it is attached to others. -/
def detachedNode (c : BuildContext) (card : Card) : Node :=
  { id := c.entityId ++ "|" ++ card.path.text
    card
    isGroup := false
    parent := none
    children := []
    previous := none
    next := none }

/-- Creates a node that shows a card. -/
def createCard (c : BuildContext) (card : Card) : Builder Nat := do
  let i := (← get).size
  modify (·.push (c.detachedNode card))
  return i

/-- Creates the node of the processor at a path.  A definition that is missing shows
what a null one does. -/
def createNode (c : BuildContext) (path : Path) (processor : String) : Builder Nat :=
  c.createCard (.ofStep c.catalog path processor ((c.valueAt path).getD .null))

/-- Creates the node of an entity. -/
def createEntityNode (c : BuildContext) (root : String) (kind : EntityKind) : Builder Nat :=
  c.createCard (.ofEntity c.catalog root kind (c.valueAt (.root root)))

/-! ## Children -/

/-- The steps in the elements of a branch at a path, each with its processor; what
holds no step is passed over. -/
def stepsOf (array : Path) (items : List Json) : List (Path × String) :=
  items.zipIdx.filterMap fun
    | (.obj ((name, _) :: _), i) => some ((array.elementAt i).child name, name)
    | _ => none

/-- The clauses in the elements of an array at a path, each with its processor.  A
clause may stand by itself or under its name as the only key of an object. -/
def clausesOf (array : Path) (name : String) (items : List Json) : List (Path × String) :=
  items.zipIdx.map fun
    | (.obj [(key, _)], i) =>
      (if key = name then (array.elementAt i).child name else array.elementAt i, name)
    | (_, i) => (array.elementAt i, name)

section

variable (c : BuildContext) (build : Path → String → Builder Nat)

/-- Builds the steps of the branch at a path, without links between them. -/
def branchChildren (path : Path) : Builder (List Nat) :=
  match c.valueAt path with
  | some (.arr items) => (stepsOf path items).mapM fun (path, processor) => build path processor
  | _ => return []

/-- Builds the clauses under a property of the definition at a path. -/
def clauseArrayChildren (path : Path) (name : String) : Builder (List Nat) :=
  match c.valueAt (path.child name) with
  | some (.arr items) =>
    (clausesOf (path.child name) name items).mapM fun (path, processor) => build path processor
  | _ => return []

/-- Builds what a steps property of the definition at a path holds.  The steps of a
branch are linked in order. -/
def childrenOfProperty (path : Path) (p : StepsProperty) : Builder (List Nat) :=
  match p.kind with
  | .branch => do
    let children ← c.branchChildren build (path.child p.name)
    modify (·.linkChain children)
    return children
  | .clauseArray => c.clauseArrayChildren build path p.name
  | .singleClause =>
    match c.valueAt (path.child p.name) with
    | none | some .null => return []
    | some _ => return [← build (path.child p.name) p.name]

end

end BuildContext

/-! ## Mappers -/

/-- A way to build a processor, given how the processors below it are built. -/
structure NodeMapper where
  processor : String
  build : BuildContext → (Path → String → Builder Nat) → Path → String → Builder Nat

namespace Mapper

section

variable (m : Mapper) (c : BuildContext) (build : Path → String → Builder Nat)

/-- Builds what is laid out below a node, and attaches it. -/
def buildChildren (node : Nat) (path : Path) (processor : String) : Builder Unit :=
  match m.layout with
  | .declared =>
    (c.catalog.stepsProperties processor).forM fun p => do
      let children ← c.childrenOfProperty build path p
      modify (·.addChildren node children)
  | .fixed properties => do
    let rows ← properties.mapM (c.childrenOfProperty build path)
    rows.forM fun children => modify (·.addChildren node children)
  | .unlinked branch => do
    let steps ← c.branchChildren build (path.child branch)
    modify (·.addChildren node steps)

/-- Builds the processor at a path, and marks it when its children are lifted. -/
def buildNode (path : Path) (processor : String) : Builder Nat := do
  let node ← c.createNode path processor
  m.buildChildren c build node path processor
  if m.lifts then modify (·.mark node)
  return node

end

/-- The way in which a mapper builds a processor. -/
def nodeMapper (m : Mapper) : NodeMapper := ⟨m.processor, m.buildNode⟩

end Mapper

/-! ## Graphs -/

/-- What the ids of nodes begin with: the id of the flow, else its root segment. -/
def Document.entityId (d : Document) : String := d.id?.getD d.root

/-- A catalog, and the mapper of every processor. -/
structure GraphBuilder where
  catalog : Catalog
  mapper : String → NodeMapper

namespace GraphBuilder

variable (b : GraphBuilder)

/-- What the building of the graph of a document reads. -/
def context (d : Document) : BuildContext := ⟨d.value, b.catalog, d.entityId⟩

/-- Builds the processor at a path, over at most so many processors nested in each
other. -/
def buildWithin (d : Document) : Nat → Path → String → Builder Nat
  | 0, _, _ => failure
  | bound + 1, path, processor =>
    (b.mapper processor).build (b.context d) (buildWithin d bound) path processor

/-- Builds what is drawn right below the root of a document, and attaches it. -/
def buildRootChildren (d : Document) (bound root : Nat) : Builder Unit :=
  let c := b.context d
  let build := b.buildWithin d bound
  match d.kind with
  | .route => do
    if (c.valueAt (d.rootPath.child "from")).isSome then
      let child ← build (d.rootPath.child "from") "from"
      modify (·.addChild root child)
  | .routeConfiguration =>
    (b.catalog.stepsProperties d.root).forM fun p => do
      let children ← c.childrenOfProperty build d.rootPath p
      modify (·.addChildren root children)
  | kind => do
    if kind.hasRootSteps then
      let steps ← c.childrenOfProperty build d.rootPath ⟨"steps", .branch⟩
      modify (·.addChildren root steps)

/-- Builds a document. -/
def buildRoot (d : Document) (bound : Nat) : Builder Nat := do
  let root ← (b.context d).createEntityNode d.root d.kind
  b.buildRootChildren d bound root
  return root

/-- The graph of what was built from an empty arena. -/
def finish (d : Document) (building : Builder Nat) : Option Graph :=
  (building.run .empty).map fun (root, arena) => arena.finish d.entityId d.kind root

/-- The graph of a document, unless processors are nested more deeply than the bound
allows. -/
def build (d : Document) (bound : Nat) : Option Graph := finish d (b.buildRoot d bound)

/-- The graph of the processor that a path addresses, if there is one; that of the
document at its root. -/
def buildPart (d : Document) (bound : Nat) (path : Path) : Option (Option Graph) :=
  if d.isRootPath path then (b.build d bound).map some
  else
    match d.processorAt? path with
    | some (path, processor) => (finish d (b.buildWithin d bound path processor)).map some
    | none => some none

end GraphBuilder

/-- What decides how processors are drawn. -/
structure Scheme where
  catalog : Catalog
  mappers : Mappers

/-- The builder of a scheme. -/
def Scheme.builder (s : Scheme) : GraphBuilder :=
  ⟨s.catalog, fun processor => (s.mappers.get processor).nodeMapper⟩

namespace Graph

/-- The graph of a whole document, over so many processors nested in each other. -/
def ofDocumentWithin (s : Scheme) (d : Document) (bound : Nat) : Option Graph :=
  s.builder.build d bound

/-- The graph of what a path addresses, over so many processors nested in each other. -/
def ofPartWithin (s : Scheme) (d : Document) (bound : Nat) (path : Path) : Option (Option Graph) :=
  s.builder.buildPart d bound path

/-- The graph of a whole document.  Processors are nested no more deeply than
containers are, so that the height of the document is bound enough. -/
def ofDocument (s : Scheme) (d : Document) : Graph :=
  (ofDocumentWithin s d d.value.height).getD ⟨d.entityId, d.kind, 0, []⟩

/-- The graph of what a path addresses: the whole document at its root, else the
processor at the path; `none` where there is nothing. -/
def ofPart? (s : Scheme) (d : Document) (path : Path) : Option Graph :=
  (ofPartWithin s d d.value.height path).join

end Graph

end FlowTree
