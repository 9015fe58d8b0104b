import FlowTree.Editor
import FlowTree.Graph.Outline
import FlowTree.Proofs.Graph.Refinement

/-!
# FlowTree.Proofs.Graph.Preorder

Graphs are trees, and the order of creation is their pre-order.

* `Graph.Visits` — the walk along lists of children, depth first and each node before
  what lies below it;
* `Graph.IsTree` — parents and lists of children agree, every node but the root stands in
  one list and there once, and the walk from the root meets the nodes in the order of
  their creation;
* `drawn_isTree` — the graph of every document, and of every part of one, is such a tree.
-/

namespace FlowTree

namespace Graph

/-- The walk from nodes in a row along lists of children: each node comes before what its
list leads to, and this before the next node of the row. -/
inductive Visits (g : Graph) : List Nat → List Nat → Prop where
  | nil : Visits g [] []
  | cons {i : Nat} {n : Node} {rest below after : List Nat} (hn : g.get? i = some n)
      (hb : Visits g n.children below) (ha : Visits g rest after) :
    Visits g (i :: rest) (i :: (below ++ after))

/-- There is one walk from a row. -/
theorem Visits.unique {g : Graph} {row order order' : List Nat} (h : g.Visits row order)
    (h' : g.Visits row order') : order = order' := by
  induction h generalizing order' with
  | nil => cases h'; rfl
  | cons hn _ _ ihb iha =>
      obtain - | ⟨hn', hb', ha'⟩ := h'
      rw [hn] at hn'
      obtain rfl := Option.some.inj hn'
      rw [ihb hb', iha ha']

/-- The lines of nodes, each behind its margin. -/
def linesBehind (margins : List String) (nodes : List Node) : String :=
  String.join (List.zipWith (fun margin n => margin ++ n.card.line) margins nodes)

theorem linesBehind_cons (margin : String) (margins : List String) (n : Node)
    (nodes : List Node) :
    linesBehind (margin :: margins) (n :: nodes) =
      margin ++ n.card.line ++ linesBehind margins nodes := by
  rw [linesBehind, List.zipWith_cons_cons, String.join_cons, linesBehind]

theorem linesBehind_append {margins : List String} {nodes : List Node}
    (h : margins.length = nodes.length) (margins' : List String) (nodes' : List Node) :
    linesBehind (margins ++ margins') (nodes ++ nodes') =
      linesBehind margins nodes ++ linesBehind margins' nodes' := by
  rw [linesBehind, List.zipWith_append h, String.join_append, linesBehind, linesBehind]

/-- The line of a node, and behind it what is printed of its children. -/
theorem outlineWithin_of_get? {g : Graph} {i : Nat} {n : Node} (h : g.get? i = some n)
    (levels : Nat) (margin : String) (isLast : Bool) :
    g.outlineWithin (levels + 1) margin (i, isLast) =
      (margin ++ if isLast then "└── " else "├── ") ++ n.card.line ++
        String.join ((markLast n.children).map
          (g.outlineWithin levels (margin ++ if isLast then "    " else "│   "))) := by
  simp only [outlineWithin, h]

/-- A graph is a tree whose pre-order is the order of creation. -/
structure IsTree (g : Graph) : Prop where
  /-- The root is the first node, and has no parent. -/
  root_parent : ∃ n, g.get? 0 = some n ∧ g.root = 0 ∧ n.parent = none
  /-- Parents and lists of children name each other. -/
  mem_children_iff : ∀ i j n m, g.get? i = some n → g.get? j = some m →
    (j ∈ n.children ↔ m.parent = some i)
  /-- What is named as a parent is there. -/
  parent_lt : ∀ j m i, g.get? j = some m → m.parent = some i → i < g.size
  /-- All lists of children together hold every node but the root, and each once. -/
  perm_children : (g.nodes.flatMap Node.children).Perm (List.range' 1 (g.size - 1))
  /-- The groups are the nodes with children. -/
  isGroup_iff : ∀ n ∈ g.nodes, n.isGroup = true ↔ n.children ≠ []
  /-- The walk from the root ends, and meets the nodes in the order of their creation. -/
  visits_iff : ∀ order, g.Visits [g.root] order ↔ order = List.range g.size
  /-- The outline has a line for each node, in the order of creation. -/
  outline_eq : ∃ margins : List String, margins.length = g.size ∧
    g.outline = linesBehind margins g.nodes

end Graph

namespace Drawing

open FlowTree.Graph

variable {entityId : String} {start : Nat} {parent : Option Nat}

/-- The walk from the topmost nodes of a row meets the nodes of the row in the order of
their creation. -/
theorem visits_positions {g : Graph} {ds : List Drawing}
    (hg : ∀ n i, (n, i) ∈ placed entityId start parent ds → g.get? i = some n) :
    g.Visits (positions start ds) (List.range' start (sizeOfAll ds)) := by
  induction ds using forest_induction generalizing start parent with
  | nil => exact .nil
  | cons card next previous lifts children rest ihc ihr =>
      rw [placed_cons] at hg
      have hs : start + (sizeOfAll children + 1) = start + 1 + sizeOfAll children := by omega
      have hb := @ihc (start + 1) (some start) fun n i hn =>
        hg n i (List.mem_cons_of_mem _ (List.mem_append_left _ hn))
      have ha := @ihr (start + (sizeOfAll children + 1)) parent fun n i hn =>
        hg n i (List.mem_cons_of_mem _ (List.mem_append_right _ hn))
      rw [sizeOfAll_cons, size_node, Nat.add_right_comm, List.range'_succ, ← List.range'_append_1,
        ← hs]
      exact .cons (hg _ _ List.mem_cons_self) hb ha

/-- A row is printed with a line for each of its nodes, in the order of creation, when
there are as many levels as nodes. -/
theorem exists_margins {g : Graph} {ds : List Drawing}
    (hg : ∀ n i, (n, i) ∈ placed entityId start parent ds → g.get? i = some n) {levels : Nat}
    (hl : sizeOfAll ds ≤ levels) (margin : String) :
    ∃ margins : List String, margins.length = sizeOfAll ds ∧
      String.join ((markLast (positions start ds)).map (g.outlineWithin levels margin)) =
        linesBehind margins (nodesOfAll entityId start parent ds) := by
  induction ds using forest_induction generalizing start parent levels margin with
  | nil => exact ⟨[], rfl, rfl⟩
  | cons card next previous lifts children rest ihc ihr =>
      rw [placed_cons] at hg
      rw [sizeOfAll_cons, size_node] at hl
      obtain ⟨levels, rfl⟩ := Nat.exists_eq_add_one_of_ne_zero (by omega : levels ≠ 0)
      -- what the node itself is printed with, and the margin of what lies below it
      let isLast := (positions (start + (sizeOfAll children + 1)) rest).isEmpty
      obtain ⟨below, hbl, hb⟩ := @ihc (start + 1) (some start)
        (fun n i hn => hg n i (List.mem_cons_of_mem _ (List.mem_append_left _ hn))) levels
        (by omega) (margin ++ if isLast then "    " else "│   ")
      obtain ⟨after, hal, ha⟩ := @ihr (start + (sizeOfAll children + 1)) parent
        (fun n i hn => hg n i (List.mem_cons_of_mem _ (List.mem_append_right _ hn)))
        (levels + 1) (by omega) margin
      refine ⟨(margin ++ if isLast then "└── " else "├── ") :: (below ++ after), ?_, ?_⟩
      · rw [List.length_cons, List.length_append, hbl, hal, sizeOfAll_cons, size_node]
        omega
      · have hlen : below.length =
            (nodesOfAll entityId (start + 1) (some start) children).length := by
          rw [hbl, length_nodesOfAll]
        have hline := outlineWithin_of_get? (hg _ _ List.mem_cons_self) levels margin isLast
        rw [positions, size_node, markLast, List.map_cons, String.join_cons, hline, hb, ha,
          nodesOfAll, nodes, size_node, List.cons_append, linesBehind_cons,
          linesBehind_append hlen, String.append_assoc]

/-- The parent of a node is there, and has the node in its list of children. -/
theorem exists_parent {kind : EntityKind} {d : Drawing} {m : Node} {i j : Nat}
    (hm : (d.toGraph entityId kind).get? j = some m) (hp : m.parent = some i) :
    ∃ n, (d.toGraph entityId kind).get? i = some n ∧ j ∈ n.children := by
  rcases parent_cases (mem_placed_iff.2 hm) with ⟨hn, -⟩ | ⟨n, i', hn, hp', hc⟩
  · rw [hp] at hn
    contradiction
  · obtain rfl := Option.some.inj (hp.symm.trans hp')
    exact ⟨n, mem_placed_iff.1 hn, hc⟩

/-- The graph of a drawing is a tree whose pre-order is the order of creation. -/
theorem isTree_toGraph (entityId : String) (kind : EntityKind) (d : Drawing) :
    (d.toGraph entityId kind).IsTree := by
  have hget : ∀ n i, (n, i) ∈ placed entityId 0 none [d] →
      (d.toGraph entityId kind).get? i = some n := fun n i => mem_placed_iff.1
  have hnodes : (d.toGraph entityId kind).nodes = nodesOfAll entityId 0 none [d] := by
    rw [toGraph, nodesOfAll, nodesOfAll, List.append_nil]
  have hsize : (d.toGraph entityId kind).size = sizeOfAll [d] := size_toGraph entityId kind d
  have hpos : positions 0 [d] = [0] := rfl
  have hvisits : (d.toGraph entityId kind).Visits [0] (List.range (d.toGraph entityId kind).size) := by
    rw [hsize, List.range_eq_range', ← hpos]
    exact visits_positions hget
  constructor
  case root_parent =>
    obtain ⟨card, next, previous, lifts, children⟩ := d
    exact ⟨_, rfl, rfl, rfl⟩
  case mem_children_iff =>
    intro i j n m hi hj
    constructor
    · intro hc
      obtain ⟨m', hm', hp⟩ := exists_placed_of_mem_children (mem_placed_iff.2 hi) hc
      obtain rfl := Option.some.inj (hj.symm.trans (hget _ _ hm'))
      exact hp
    · intro hp
      obtain ⟨n', hn', hc⟩ := exists_parent hj hp
      obtain rfl := Option.some.inj (hi.symm.trans hn')
      exact hc
  case parent_lt =>
    intro j m i hj hp
    obtain ⟨n, hn, -⟩ := exists_parent hj hp
    exact (List.getElem?_eq_some_iff.1 hn).1
  case perm_children =>
    have hperm := @perm_positions entityId 0 none [d]
    rw [← hnodes, ← hsize, hpos] at hperm
    obtain ⟨size, hs⟩ := Nat.exists_eq_add_one_of_ne_zero
      (Nat.ne_of_gt (hsize ▸ size_pos d) : (d.toGraph entityId kind).size ≠ 0)
    rw [hs, List.range'_succ, List.singleton_append] at hperm
    rw [hs]
    exact hperm.cons_inv
  case isGroup_iff =>
    intro n hn
    rw [hnodes] at hn
    simp [isGroup_of_mem_nodesOfAll hn]
  case visits_iff =>
    intro order
    exact ⟨fun h => h.unique hvisits, fun h => h ▸ hvisits⟩
  case outline_eq =>
    obtain ⟨margins, hl, ho⟩ := exists_margins hget (Nat.le_of_eq hsize.symm) ""
    refine ⟨margins, hl.trans hsize.symm, ?_⟩
    rw [hnodes, ← ho, hpos]
    simp [outline, toGraph, markLast, String.join_cons]

end Drawing

namespace Graph

/-- **Trees.** Whatever the document, the catalog and the mappers, the graph of the
document is a tree whose pre-order is the order of creation, and so is the graph of every
part of it. -/
theorem drawn_isTree (s : Scheme) (d : Document) :
    (ofDocument s d).IsTree ∧ ∀ path g, ofPart? s d path = some g → g.IsTree := by
  have hwhole : (ofDocument s d).IsTree := by
    rw [ofDocument_eq]
    exact Drawing.isTree_toGraph _ _ _
  refine ⟨hwhole, fun path g hg => ?_⟩
  rcases ofPart?_cases hg with ⟨-, rfl⟩ | ⟨σ, -, -, rfl⟩
  · exact hwhole
  · exact Drawing.isTree_toGraph _ _ _

/-- The part of a route from its entry on, with a `from` in it that hands its steps over. -/
theorem drawn_isTree_entry :
    let inner : Json := .obj [("from", .obj [("steps", .arr [.obj [("log", .obj [])]])])]
    let entry : Json := .obj [("uri", .str "timer:t"), ("steps", .arr [inner, inner])]
    let d : Document := ⟨.obj [("route", .obj [("from", entry)])], "route"⟩
    ∃ g, ofPart? Context.builtin.scheme d (d.rootPath.child "from") = some g ∧ g.size = 5 ∧
      g.IsTree := by
  intro inner entry d
  obtain ⟨g, hg⟩ : ∃ g, ofPart? Context.builtin.scheme d (d.rootPath.child "from") = some g :=
    Option.isSome_iff_exists.1 (by decide +kernel)
  have hsize : (ofPart? Context.builtin.scheme d (d.rootPath.child "from")).map size = some 5 := by
    decide +kernel
  rw [hg] at hsize
  exact ⟨g, hg, Option.some.inj hsize, (drawn_isTree _ d).2 _ g hg⟩

end Graph

end FlowTree
