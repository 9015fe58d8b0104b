import FlowTree.Graph.Build

/-!
# FlowTree.Proofs.Graph.Drawing

Drawings: trees of cards with links between them.

A drawing is what the graph of a document is to be, told by recursion on the
definitions in it and without an arena.  It lists its nodes in the order in which
they are created, each before what lies below it.  A link is a distance in that
order, so a drawing means the same wherever it stands in a larger one.

* `Drawing.chain` — links steps that follow each other;
* `Drawing.attach` — puts a child under its parent, lifting what it hands over;
* `draw`, `Document.drawing` — the drawing of a processor, and of a document;
* `Drawing.nodes`, `Drawing.toGraph` — the nodes of a drawing, in a graph.
-/

namespace FlowTree

/-- A node with what lies below it.  `next` and `previous` are distances to the
linked nodes in the order of creation. -/
inductive Drawing where
  | node (card : Card) (next previous : Option Nat) (lifts : Bool) (children : List Drawing)

namespace Drawing

/-- The card of the topmost node. -/
def card : Drawing → Card
  | node card _ _ _ _ => card

/-- The drawings right below the topmost node. -/
def children : Drawing → List Drawing
  | node _ _ _ _ children => children

/-- The distance to the node linked behind the topmost one. -/
def next : Drawing → Option Nat
  | node _ next _ _ _ => next

/-- The distance to the node linked before the topmost one. -/
def previous : Drawing → Option Nat
  | node _ _ previous _ _ => previous

/-- Whether the topmost node hands its children over to its parent. -/
def lifts : Drawing → Bool
  | node _ _ _ lifts _ => lifts

mutual

/-- The number of nodes. -/
def size : Drawing → Nat
  | node _ _ _ _ children => sizeOfAll children + 1

/-- The number of nodes of drawings in a row. -/
def sizeOfAll : List Drawing → Nat
  | [] => 0
  | d :: rest => d.size + sizeOfAll rest

end

/-! ## Links -/

/-- The drawing with the given links in place of its own. -/
def withLinks (next previous : Option Nat) : Drawing → Drawing
  | node card _ _ lifts children => node card next previous lifts children

/-- Links the drawings of a row, the first of them to a node at a distance before. -/
def chainBehind (previous : Option Nat) : List Drawing → List Drawing
  | [] => []
  | d :: rest =>
    d.withLinks (if rest.isEmpty then none else some d.size) previous ::
      chainBehind (some d.size) rest

/-- Links every drawing of a row to the one behind it. -/
def chain (ds : List Drawing) : List Drawing := chainBehind none ds

/-! ## Attaching -/

/-- Drawings in a row, the first of them linked to the node right before it. -/
def linkFirst : List Drawing → List Drawing
  | [] => []
  | node card next _ lifts children :: rest => node card next (some 1) lifts children :: rest

/-- What a child adds to the children of its parent: the child and, when it hands
its own children over, those behind it, with a link from the child to the first. -/
def attach : Drawing → List Drawing
  | node card next previous true children =>
    let next := if children.isEmpty then next else some 1
    node card next previous false [] :: linkFirst children
  | d => [d]

/-- What children in a row add to the children of their parent. -/
def attachAll (ds : List Drawing) : List Drawing := ds.flatMap attach

end Drawing

/-! ## Drawing processors -/

mutual

/-- The drawing of a processor with the given definition. -/
def draw (s : Scheme) (path : Path) (processor : String) : Json → Drawing
  | .obj fields =>
    let mapper := s.mappers.get processor
    .node (.ofStep s.catalog path processor (.obj fields)) none none mapper.lifts <|
      (mapper.properties s.catalog processor).flatMap fun p =>
        Drawing.attachAll (drawProperty s path mapper.links p fields)
  | definition =>
    .node (.ofStep s.catalog path processor definition) none none
      (s.mappers.get processor).lifts []

/-- The drawings of the steps under a steps property, given the fields of the
definition at a path. -/
def drawProperty (s : Scheme) (path : Path) (links : Bool) (p : StepsProperty) :
    List (String × Json) → List Drawing
  | [] => []
  | (key, value) :: rest =>
    if key = p.name then
      match p.kind, value with
      | .singleClause, .null => []
      | .singleClause, value => [draw s (path.child p.name) p.name value]
      | .branch, .arr items =>
        let steps := drawBranch s (path.child p.name) 0 items
        if links then Drawing.chain steps else steps
      | .clauseArray, .arr items => drawClauses s (path.child p.name) p.name 0 items
      | _, _ => []
    else drawProperty s path links p rest

/-- The drawings of the step holders of a branch from a position on; what holds no
step is passed over. -/
def drawBranch (s : Scheme) (path : Path) (i : Nat) : List Json → List Drawing
  | [] => []
  | .obj ((key, value) :: _) :: rest =>
    draw s ((path.elementAt i).child key) key value :: drawBranch s path (i + 1) rest
  | _ :: rest => drawBranch s path (i + 1) rest

/-- The drawings of the clauses of an array from a position on.  A clause may stand
by itself or under its name as the only key of an object. -/
def drawClauses (s : Scheme) (path : Path) (name : String) (i : Nat) : List Json → List Drawing
  | [] => []
  | .obj [(key, value)] :: rest =>
    (if key = name then draw s ((path.elementAt i).child name) name value
      else draw s (path.elementAt i) name (.obj [(key, value)])) ::
      drawClauses s path name (i + 1) rest
  | value :: rest => draw s (path.elementAt i) name value :: drawClauses s path name (i + 1) rest

end

/-! ## Drawing documents -/

namespace Document

/-- What is drawn right below the root of a document. -/
def drawRootChildren (d : Document) (s : Scheme) : List Drawing :=
  match d.definition? with
  | some (.obj fields) =>
    match d.kind with
    | .route =>
      match Fields.get? "from" fields with
      | some definition => [draw s (d.rootPath.child "from") "from" definition]
      | none => []
    | .routeConfiguration =>
      (s.catalog.stepsProperties d.root).flatMap fun p =>
        drawProperty s d.rootPath true p fields
    | kind =>
      if kind.hasRootSteps then drawProperty s d.rootPath true ⟨"steps", .branch⟩ fields else []
  | _ => []

/-- The drawing of a whole document. -/
def drawing (d : Document) (s : Scheme) : Drawing :=
  .node (.ofEntity s.catalog d.root d.kind d.definition?) none none false
    (Drawing.attachAll (d.drawRootChildren s))

end Document

/-! ## Nodes -/

namespace Drawing

/-- The positions of drawings in a row, the first of them at the given one. -/
def positions : Nat → List Drawing → List Nat
  | _, [] => []
  | start, d :: rest => start :: positions (start + d.size) rest

mutual

/-- The nodes of a drawing that starts at a position. -/
def nodes (entityId : String) (start : Nat) (parent : Option Nat) : Drawing → List Node
  | node card next previous _ children =>
    { id := entityId ++ "|" ++ card.path.text
      card
      isGroup := !children.isEmpty
      parent
      children := positions (start + 1) children
      previous := previous.map (start - ·)
      next := next.map (start + ·) } :: nodesOfAll entityId (start + 1) (some start) children

/-- The nodes of drawings in a row, the first of them at a position. -/
def nodesOfAll (entityId : String) (start : Nat) (parent : Option Nat) :
    List Drawing → List Node
  | [] => []
  | d :: rest =>
    nodes entityId start parent d ++ nodesOfAll entityId (start + d.size) parent rest

end

mutual

/-- A drawing has as many nodes as its size says. -/
theorem length_nodes (entityId : String) (start : Nat) (parent : Option Nat) :
    (d : Drawing) → (nodes entityId start parent d).length = d.size
  | node _ _ _ _ children => by
    simp [nodes, size, length_nodesOfAll entityId (start + 1) (some start) children]

/-- Drawings in a row have as many nodes as their sizes say. -/
theorem length_nodesOfAll (entityId : String) (start : Nat) (parent : Option Nat) :
    (ds : List Drawing) → (nodesOfAll entityId start parent ds).length = sizeOfAll ds
  | [] => rfl
  | d :: rest => by
    simp [nodesOfAll, sizeOfAll, length_nodes entityId start parent d,
      length_nodesOfAll entityId (start + d.size) parent rest]

end

/-! ## Equations -/

@[simp] theorem sizeOfAll_nil : sizeOfAll [] = 0 := rfl

@[simp] theorem sizeOfAll_cons (d : Drawing) (rest : List Drawing) :
    sizeOfAll (d :: rest) = d.size + sizeOfAll rest := rfl

@[simp] theorem size_node (card : Card) (next previous : Option Nat) (lifts : Bool)
    (children : List Drawing) :
    (node card next previous lifts children).size = sizeOfAll children + 1 := rfl

@[simp] theorem sizeOfAll_append (xs ys : List Drawing) :
    sizeOfAll (xs ++ ys) = sizeOfAll xs + sizeOfAll ys := by
  induction xs with
  | nil => simp
  | cons d rest ih => simp [ih, Nat.add_assoc]

theorem size_pos (d : Drawing) : 0 < d.size := by
  cases d
  simp

@[simp] theorem withLinks_eq (next previous next' previous' : Option Nat) (card : Card)
    (lifts : Bool) (children : List Drawing) :
    (node card next previous lifts children).withLinks next' previous' =
      node card next' previous' lifts children := rfl

@[simp] theorem children_withLinks (next previous : Option Nat) (d : Drawing) :
    (d.withLinks next previous).children = d.children := by
  cases d
  rfl

@[simp] theorem lifts_withLinks (next previous : Option Nat) (d : Drawing) :
    (d.withLinks next previous).lifts = d.lifts := by
  cases d
  rfl

@[simp] theorem next_withLinks (next previous : Option Nat) (d : Drawing) :
    (d.withLinks next previous).next = next := by
  cases d
  rfl

@[simp] theorem size_withLinks (next previous : Option Nat) (d : Drawing) :
    (d.withLinks next previous).size = d.size := by
  cases d
  rfl

@[simp] theorem previous_withLinks (next previous : Option Nat) (d : Drawing) :
    (d.withLinks next previous).previous = previous := by
  cases d
  rfl

@[simp] theorem card_withLinks (next previous : Option Nat) (d : Drawing) :
    (d.withLinks next previous).card = d.card := by
  cases d
  rfl

@[simp] theorem withLinks_next_previous (d : Drawing) :
    d.withLinks d.next d.previous = d := by
  cases d
  rfl

@[simp] theorem attachAll_nil : attachAll [] = [] := rfl

theorem attachAll_cons (d : Drawing) (rest : List Drawing) :
    attachAll (d :: rest) = attach d ++ attachAll rest := rfl

theorem attachAll_append (xs ys : List Drawing) :
    attachAll (xs ++ ys) = attachAll xs ++ attachAll ys := List.flatMap_append

theorem sizeOfAll_linkFirst (ds : List Drawing) : sizeOfAll (linkFirst ds) = sizeOfAll ds := by
  rcases ds with - | ⟨⟨card, next, previous, lifts, children⟩, rest⟩ <;> rfl

theorem sizeOfAll_attach (d : Drawing) : sizeOfAll (attach d) = d.size := by
  obtain ⟨card, next, previous, lifts, children⟩ := d
  cases lifts with
  | false => simp [attach]
  | true => simp [attach, sizeOfAll_linkFirst, Nat.add_comm]

theorem sizeOfAll_attachAll (ds : List Drawing) : sizeOfAll (attachAll ds) = sizeOfAll ds := by
  induction ds with
  | nil => rfl
  | cons d rest ih => rw [attachAll_cons, sizeOfAll_append, sizeOfAll_attach, ih, sizeOfAll_cons]

theorem positions_append {start : Nat} (xs ys : List Drawing) :
    positions start (xs ++ ys) = positions start xs ++ positions (start + sizeOfAll xs) ys := by
  induction xs generalizing start with
  | nil => rfl
  | cons d rest ih => simp [positions, ih, Nat.add_assoc]

/-- The graph of a drawing. -/
def toGraph (entityId : String) (kind : EntityKind) (d : Drawing) : Graph :=
  ⟨entityId, kind, 0, d.nodes entityId 0 none⟩

end Drawing

end FlowTree
