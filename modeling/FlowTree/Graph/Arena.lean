import FlowTree.Graph.Basic

/-!
# FlowTree.Graph.Arena

The arena in which a graph is built: the nodes created so far, and those whose
children are to be handed over.

A node is created before it has a parent, children or links.  A marked node keeps
its children only until it is attached: then they go to its parent, right behind
it.

* `Arena.push` — creates a node;
* `Arena.link`, `Arena.linkChain` — links nodes that follow each other;
* `Arena.addChild` — attaches a node to its parent;
* `Arena.finish` — the graph of what was built.
-/

namespace FlowTree

/-- The node, told to be a group when it has children. -/
def Node.grouped (n : Node) : Node := { n with isGroup := !n.children.isEmpty }

/-- Nodes under construction, and the positions of those marked to hand their
children over, in no particular order. -/
structure Arena where
  nodes : List Node
  marked : List Nat
  deriving DecidableEq

namespace Arena

/-- The arena without nodes. -/
def empty : Arena := ⟨[], []⟩

/-- The number of nodes, which is the position of the next one. -/
def size (a : Arena) : Nat := a.nodes.length

/-- Creates a node. -/
def push (a : Arena) (node : Node) : Arena := { a with nodes := a.nodes ++ [node] }

/-- Changes the node at a position. -/
def update (a : Arena) (i : Nat) (change : Node → Node) : Arena :=
  { a with nodes := a.nodes.modify i change }

/-! ## Links -/

/-- Links one node to another one. -/
def link (a : Arena) (i j : Nat) : Arena :=
  (a.update i fun n => { n with next := some j }).update j fun n => { n with previous := some i }

/-- Links every node of a row to the one behind it. -/
def linkChain (a : Arena) : List Nat → Arena
  | i :: j :: rest => (a.link i j).linkChain (j :: rest)
  | _ => a

/-! ## Children -/

/-- Marks a node to hand its children over to its parent. -/
def mark (a : Arena) (i : Nat) : Arena := { a with marked := i :: a.marked }

/-- Makes one node the last child of another one. -/
def adopt (a : Arena) (parent child : Nat) : Arena :=
  (a.update child fun n => { n with parent := some parent }).update parent fun n =>
    { n with children := n.children ++ [child] }

/-- Makes the nodes of a row the last children of a node. -/
def adoptAll (a : Arena) (parent : Nat) (children : List Nat) : Arena :=
  children.foldl (adopt · parent) a

/-- Takes the mark and the children of a node. -/
def release (a : Arena) (i : Nat) : Arena :=
  update { a with marked := a.marked.filter (· ≠ i) } i fun n => { n with children := [] }

/-- Links a node to the first of a row. -/
def linkFirst (a : Arena) (i : Nat) : List Nat → Arena
  | first :: _ => a.link i first
  | [] => a

/-- Attaches a node to its parent.  A marked one hands its children over to the
parent, right behind itself, and is linked to the first of them. -/
def addChild (a : Arena) (parent child : Nat) : Arena :=
  let a := a.adopt parent child
  if child ∈ a.marked then
    let lifted := ((a.nodes[child]?).map Node.children).getD []
    ((a.release child).linkFirst child lifted).adoptAll parent lifted
  else a

/-- Attaches the nodes of a row to their parent. -/
def addChildren (a : Arena) (parent : Nat) (children : List Nat) : Arena :=
  children.foldl (addChild · parent) a

/-! ## The graph -/

/-- Tells the groups among the nodes. -/
def normalizeGroups (a : Arena) : Arena := { a with nodes := a.nodes.map Node.grouped }

/-- The graph of what was built. -/
def finish (a : Arena) (entityId : String) (kind : EntityKind) (root : Nat) : Graph :=
  ⟨entityId, kind, root, a.normalizeGroups.nodes⟩

end Arena

end FlowTree
