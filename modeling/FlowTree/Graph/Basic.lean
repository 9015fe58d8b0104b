import FlowTree.Document.Kind
import FlowTree.Graph.Card

/-!
# FlowTree.Graph.Basic

Graphs: nodes in the order of their creation, with references between them by
position.

* `Graph.findByPath?`, `Graph.findById?` — the first node of a path or an id;
* `Graph.chain` — the nodes that links lead to.
-/

namespace FlowTree

/-- A node of a graph.  A group is a node with children. -/
structure Node where
  id : String
  card : Card
  isGroup : Bool
  parent : Option Nat
  children : List Nat
  previous : Option Nat
  next : Option Nat
  deriving DecidableEq

/-- The graph of a document or of a part of it. -/
structure Graph where
  entityId : String
  entityKind : EntityKind
  /-- The position of the root. -/
  root : Nat
  nodes : List Node
  deriving DecidableEq

namespace Graph

/-- The number of nodes. -/
def size (g : Graph) : Nat := g.nodes.length

/-- The node at a position. -/
def get? (g : Graph) (i : Nat) : Option Node := g.nodes[i]?

/-- The nodes right below the one at a position. -/
def childrenOf (g : Graph) (i : Nat) : List Node :=
  ((g.get? i).map fun n => n.children.filterMap g.get?).getD []

/-- The node linked behind the one at a position. -/
def nextOf? (g : Graph) (i : Nat) : Option Node := do g.get? (← (← g.get? i).next)

/-- The node linked before the one at a position. -/
def previousOf? (g : Graph) (i : Nat) : Option Node := do g.get? (← (← g.get? i).previous)

/-- The position of the first node with the path. -/
def findByPath? (g : Graph) (path : Path) : Option Nat :=
  g.nodes.findIdx? fun n => n.card.path == path

/-- The position of the first node with the id. -/
def findById? (g : Graph) (id : String) : Option Nat := g.nodes.findIdx? fun n => n.id == id

/-- Follows links from a position, itself included, over at most so many nodes. -/
def chainWithin (g : Graph) : Nat → Nat → List Nat
  | 0, _ => []
  | bound + 1, i =>
    i :: match (g.get? i).bind (·.next) with
      | some j => chainWithin g bound j
      | none => []

/-- The positions that links lead to from a position, itself included.  Links lead
forward, so there are no more of them than there are nodes. -/
def chain (g : Graph) (i : Nat) : List Nat := g.chainWithin g.size i

end Graph

end FlowTree
