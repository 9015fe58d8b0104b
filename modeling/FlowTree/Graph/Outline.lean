import FlowTree.Graph.Basic

/-!
# FlowTree.Graph.Outline

Graphs as outlines: a line for each node, below its parent and behind a margin.
-/

namespace FlowTree

/-- What a node shows on its line: the processor, the label when it says more, and
the path. -/
def Card.line (card : Card) : String :=
  card.processor ++ (if card.label = card.processor then "" else " (" ++ card.label ++ ")") ++
    " [" ++ card.path.text ++ "]\n"

namespace Graph

/-- Positions in a row, the last of them marked. -/
def markLast : List Nat → List (Nat × Bool)
  | [] => []
  | i :: rest => (i, rest.isEmpty) :: markLast rest

/-- The lines of a node and of what lies below it, over at most so many levels. -/
def outlineWithin (g : Graph) : Nat → String → Nat × Bool → String
  | 0, _, _ => ""
  | levels + 1, margin, (i, isLast) =>
    match g.get? i with
    | some n =>
      margin ++ (if isLast then "└── " else "├── ") ++ n.card.line ++
        String.join ((markLast n.children).map
          (outlineWithin g levels (margin ++ if isLast then "    " else "│   ")))
    | none => ""

/-- The outline of a graph, which has no more levels than nodes. -/
def outline (g : Graph) : String := g.outlineWithin g.size "" (g.root, true)

end Graph

end FlowTree
