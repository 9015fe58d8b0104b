import FlowTree.Proofs.Graph.Placed

/-!
# FlowTree.Proofs.Graph.Arena

What stands in an arena while a graph is built.

A building adds a forest behind the nodes of an arena: drawings in a row, whose topmost
nodes have no parent yet, and of which those that lift are marked.  Every operation of
the arena turns one such forest into another one, and this is all that it does:

* `Grows` — a forest stands behind the nodes of an arena;
* `Grows.push`, `Grows.append` — nodes are created, and built by others;
* `Grows.linkChain` — a row is linked, as `Drawing.chain` says;
* `Grows.addChildren` — the drawings behind one of them become its children, as
  `Drawing.attach` says, those handed over included;
* `Grows.mark` — a node is marked to hand its children over;
* `Grows.finish` — a forest of one drawing becomes the graph of it.
-/

namespace FlowTree

/-- A node before groups are told. -/
def Node.ungrouped (n : Node) : Node := { n with isGroup := false }

namespace Drawing

variable {entityId : String} {start : Nat} {parent : Option Nat}

/-! ## Nodes of a forest -/

/-- The topmost node of a drawing as an arena has it. -/
def cell (entityId : String) (start : Nat) (parent : Option Nat) (card : Card)
    (next previous : Option Nat) (children : List Drawing) : Node :=
  { id := entityId ++ "|" ++ card.path.text
    card
    isGroup := false
    parent
    children := positions (start + 1) children
    previous := previous.map (start - ·)
    next := next.map (start + ·) }

/-- The nodes of drawings in a row as an arena has them, the first of them at a position. -/
def cells (entityId : String) (start : Nat) (parent : Option Nat) (ds : List Drawing) : List Node :=
  (nodesOfAll entityId start parent ds).map Node.ungrouped

@[simp] theorem cells_nil : cells entityId start parent [] = [] := rfl

@[simp] theorem length_cells (ds : List Drawing) :
    (cells entityId start parent ds).length = sizeOfAll ds := by
  rw [cells, List.length_map, length_nodesOfAll]

theorem cells_cons (card : Card) (next previous : Option Nat) (lifts : Bool)
    (children rest : List Drawing) :
    cells entityId start parent (node card next previous lifts children :: rest) =
      cell entityId start parent card next previous children ::
        (cells entityId (start + 1) (some start) children ++
          cells entityId (start + (sizeOfAll children + 1)) parent rest) := by
  simp [cells, cell, nodesOfAll, nodes, Node.ungrouped]

theorem cells_append (xs ys : List Drawing) :
    cells entityId start parent (xs ++ ys) =
      cells entityId start parent xs ++ cells entityId (start + sizeOfAll xs) parent ys := by
  induction xs generalizing start with
  | nil => simp
  | cons d rest ih =>
      obtain ⟨card, next, previous, lifts, children⟩ := d
      simp only [List.cons_append, cells_cons, ih, List.append_assoc, sizeOfAll_cons, size_node,
        Nat.add_assoc]

theorem isGroup_of_mem_nodesOfAll {ds : List Drawing} {n : Node}
    (h : n ∈ nodesOfAll entityId start parent ds) : n.isGroup = !n.children.isEmpty := by
  induction ds using forest_induction generalizing start parent with
  | nil => contradiction
  | cons card next previous lifts children rest ihc ihr =>
      rw [nodesOfAll, nodes, List.cons_append] at h
      rcases List.mem_cons.1 h with rfl | h
      · cases children <;> rfl
      · exact (List.mem_append.1 h).elim ihc ihr

/-! ## Marks of a forest -/

/-- The positions of the topmost nodes of a row that hand their children over. -/
def lifting : Nat → List Drawing → List Nat
  | _, [] => []
  | start, d :: rest =>
    if d.lifts then start :: lifting (start + d.size) rest else lifting (start + d.size) rest

theorem mem_lifting_cons {d : Drawing} {rest : List Drawing} {i : Nat} :
    i ∈ lifting start (d :: rest) ↔
      d.lifts = true ∧ i = start ∨ i ∈ lifting (start + d.size) rest := by
  rw [lifting]
  split <;> simp [*]

theorem lifting_append (xs ys : List Drawing) :
    lifting start (xs ++ ys) = lifting start xs ++ lifting (start + sizeOfAll xs) ys := by
  induction xs generalizing start with
  | nil => rfl
  | cons d rest ih =>
      rw [List.cons_append, lifting, lifting, ih, sizeOfAll_cons, ← Nat.add_assoc]
      split <;> rfl

/-- The topmost nodes of a row stand within it. -/
theorem mem_lifting_bounds {ds : List Drawing} {i : Nat} (h : i ∈ lifting start ds) :
    start ≤ i ∧ i < start + sizeOfAll ds := by
  induction ds generalizing start with
  | nil => contradiction
  | cons d rest ih =>
      have hpos := d.size_pos
      rw [sizeOfAll_cons]
      rcases mem_lifting_cons.1 h with ⟨-, rfl⟩ | hrest
      · omega
      · have hbounds := ih hrest
        omega

end Drawing

open Drawing

namespace Arena

variable {entityId : String}

/-! ## Operations on the nodes -/

section

variable {a : Arena} {front mid back : List Node} {n m : Node} {i j : Nat}

theorem nodes_update (h : a.nodes = front ++ n :: back) (hi : front.length = i)
    (change : Node → Node) : (a.update i change).nodes = front ++ change n :: back := by
  subst hi
  simp only [update, h]
  clear h
  induction front with
  | nil => rfl
  | cons first rest ih => exact congrArg (first :: ·) ih

/-- Two nodes of an arena, one behind the other, changed one after the other. -/
theorem nodes_update_update (h : a.nodes = front ++ n :: (mid ++ m :: back))
    (hi : front.length = i) (hj : i + 1 + mid.length = j) (change change' : Node → Node) :
    ((a.update i change).update j change').nodes =
      front ++ change n :: (mid ++ change' m :: back) := by
  have hsplit : (a.update i change).nodes = (front ++ change n :: mid) ++ m :: back := by
    rw [nodes_update h hi, List.append_assoc, List.cons_append]
  have hlength : (front ++ change n :: mid).length = j := by
    rw [List.length_append, List.length_cons]
    omega
  rw [nodes_update hsplit hlength, List.append_assoc, List.cons_append]

theorem nodes_link (h : a.nodes = front ++ n :: (mid ++ m :: back)) (hi : front.length = i)
    (hj : i + 1 + mid.length = j) :
    (a.link i j).nodes =
      front ++ { n with next := some j } :: (mid ++ { m with previous := some i } :: back) :=
  nodes_update_update h hi hj _ _

theorem nodes_adopt (h : a.nodes = front ++ n :: (mid ++ m :: back)) (hi : front.length = i)
    (hj : i + 1 + mid.length = j) :
    (a.adopt i j).nodes =
      front ++ { n with children := n.children ++ [j] } ::
        (mid ++ { m with parent := some i } :: back) := by
  have hsplit : a.nodes = (front ++ n :: mid) ++ m :: back := by
    rw [h, List.append_assoc, List.cons_append]
  have hlength : (front ++ n :: mid).length = j := by
    rw [List.length_append, List.length_cons]
    omega
  have hchild := nodes_update hsplit hlength fun c => { c with parent := some i }
  rw [List.append_assoc, List.cons_append] at hchild
  exact nodes_update hchild hi _

/-- The drawings of a row become children of a node before them. -/
theorem nodes_adoptAll {parent : Option Nat} {ds : List Drawing}
    (h : a.nodes = front ++ n :: (mid ++ (cells entityId j parent ds ++ back)))
    (hi : front.length = i) (hj : i + 1 + mid.length = j) :
    (a.adoptAll i (positions j ds)).nodes =
      front ++ { n with children := n.children ++ positions j ds } ::
        (mid ++ (cells entityId j (some i) ds ++ back)) := by
  induction ds generalizing a n mid j with
  | nil => simpa [positions, adoptAll] using h
  | cons d rest ih =>
      obtain ⟨card, next, previous, lifts, children⟩ := d
      rw [cells_cons, List.cons_append, List.append_assoc] at h
      let adopter : Node := { n with children := n.children ++ [j] }
      let adopted := cell entityId j (some i) card next previous children ::
        cells entityId (j + 1) (some j) children
      have hfirst : (a.adopt i j).nodes = front ++ adopter :: (mid ++
          (adopted ++ (cells entityId (j + (sizeOfAll children + 1)) parent rest ++ back))) :=
        nodes_adopt h hi hj
      -- what the next drawing stands behind has grown by the first one
      rw [← List.append_assoc mid] at hfirst
      have hlength : i + 1 + (mid ++ adopted).length = j + (sizeOfAll children + 1) := by
        rw [List.length_append, List.length_cons, length_cells]
        omega
      have hnext := ih hfirst hlength
      rw [adoptAll, positions, List.foldl_cons, ← adoptAll, size_node, hnext, cells_cons]
      simp [adopter, adopted]

/-- A row of drawings of which only the first has a link back is linked as a chain. -/
theorem nodes_linkChain {parent previous : Option Nat} {d : Drawing} {rest : List Drawing}
    (hrest : ∀ e ∈ rest, e.withLinks none none = e)
    (h : a.nodes = front ++ (cells entityId i parent (d.withLinks none previous :: rest) ++ back))
    (hi : front.length = i) :
    (a.linkChain (positions i (d :: rest))).nodes =
      front ++ (cells entityId i parent (chainBehind previous (d :: rest)) ++ back) := by
  induction rest generalizing a front d i previous with
  | nil => exact h
  | cons e rest ih =>
      obtain ⟨card, next, previous', lifts, children⟩ := d
      obtain ⟨card', next', previous'', lifts', children'⟩ := e
      obtain ⟨he, hrest⟩ := List.forall_mem_cons.1 hrest
      rw [withLinks_eq, ← he, withLinks_eq, cells_cons, cells_cons] at h
      let first := cell entityId i parent card (some (sizeOfAll children + 1)) previous children ::
        cells entityId (i + 1) (some i) children
      have hlink : (a.link i (i + (sizeOfAll children + 1))).nodes =
          (front ++ first) ++ (cells entityId (i + (sizeOfAll children + 1)) parent
            ((node card' next' previous'' lifts' children').withLinks none
              (some (sizeOfAll children + 1)) :: rest) ++ back) := by
        rw [nodes_link (by simpa using h) hi (by rw [length_cells]; omega), withLinks_eq,
          cells_cons]
        simp [first, cell]
      have hlength : (front ++ first).length = i + (sizeOfAll children + 1) := by
        rw [List.length_append, List.length_cons, length_cells]
        omega
      have hchain : chainBehind previous (node card next previous' lifts children ::
          node card' next' previous'' lifts' children' :: rest) =
          node card (some (sizeOfAll children + 1)) previous lifts children ::
            chainBehind (some (sizeOfAll children + 1))
              (node card' next' previous'' lifts' children' :: rest) := rfl
      rw [hchain, cells_cons, positions, size_node, positions, linkChain, ← positions,
        ih hrest hlink hlength]
      simp only [first, List.append_assoc, List.cons_append]

/-- A node that is released stands before its children, linked to the first of them. -/
theorem nodes_release {parent : Option Nat} {card : Card} {next previous : Option Nat}
    {children : List Drawing}
    (h : a.nodes = front ++ cell entityId i parent card next previous children ::
      (cells entityId (i + 1) (some i) children ++ back))
    (hi : front.length = i) :
    ((a.release i).linkFirst i (positions (i + 1) children)).nodes =
      front ++ (cells entityId i parent
        [node card (if children.isEmpty then next else some 1) previous false []] ++
          (cells entityId (i + 1) (some i) (Drawing.linkFirst children) ++ back)) := by
  have htaken : (a.release i).nodes = front ++ cell entityId i parent card next previous [] ::
      (cells entityId (i + 1) (some i) children ++ back) :=
    nodes_update (a := { a with marked := a.marked.filter (· ≠ i) }) h hi _
  cases children with
  | nil => exact htaken.trans (by simp [cells_cons, Drawing.linkFirst])
  | cons d rest =>
      obtain ⟨card', next', previous', lifts', children'⟩ := d
      let second := cell entityId (i + 1) (some i) card' next' previous' children'
      let more := cells entityId (i + 1 + 1) (some (i + 1)) children' ++
        cells entityId (i + 1 + (sizeOfAll children' + 1)) (some i) rest
      -- nothing stands between the node and the first of its children
      have hcut : (a.release i).nodes = front ++ cell entityId i parent card next previous [] ::
          ([] ++ second :: (more ++ back)) := by rw [htaken, cells_cons]; rfl
      exact (nodes_link hcut hi rfl).trans
        (by simp [second, more, Drawing.linkFirst, cells_cons, cell, positions])

theorem positions_linkFirst (start : Nat) (ds : List Drawing) :
    positions start (Drawing.linkFirst ds) = positions start ds := by
  rcases ds with - | ⟨⟨card, next, previous, lifts, children⟩, rest⟩ <;> rfl

/-- Attaching a drawing to a node before it does to the nodes what `attach` says. -/
theorem nodes_addChild {parent : Option Nat} {d : Drawing} (hd : j ∈ a.marked ↔ d.lifts = true)
    (h : a.nodes = front ++ n :: (mid ++ (cells entityId j parent [d] ++ back)))
    (hi : front.length = i) (hj : i + 1 + mid.length = j) :
    (a.addChild i j).nodes =
      front ++ { n with children := n.children ++ positions j (attach d) } ::
        (mid ++ (cells entityId j (some i) (attach d) ++ back)) := by
  have hadopt : (a.adopt i j).nodes = front ++ { n with children := n.children ++ [j] } ::
      (mid ++ (cells entityId j (some i) [d] ++ back)) := nodes_adoptAll h hi hj
  obtain ⟨card, next, previous, lifts, children⟩ := d
  cases lifts with
  | false =>
      have hunmarked : j ∉ (a.adopt i j).marked := fun hm => by simpa [Drawing.lifts] using hd.1 hm
      rw [addChild, if_neg hunmarked, hadopt]
      rfl
  | true =>
      have hmarked : j ∈ (a.adopt i j).marked := hd.2 rfl
      let n' : Node := { n with children := n.children ++ [j] }
      have hlength : (front ++ n' :: mid).length = j := by
        rw [List.length_append, List.length_cons]
        omega
      have hcut : (a.adopt i j).nodes = (front ++ n' :: mid) ++
          cell entityId j (some i) card next previous children ::
            (cells entityId (j + 1) (some j) children ++ back) := by
        rw [hadopt, cells_cons]
        simp [n']
      have hlifted : (((a.adopt i j).nodes[j]?).map Node.children).getD [] =
          positions (j + 1) children := by
        rw [hcut, List.getElem?_append_right (Nat.le_of_eq hlength), hlength, Nat.sub_self]
        rfl
      -- the node keeps its place, and its children follow it to the parent
      have hreleased := nodes_release hcut hlength
      rw [List.append_assoc, List.cons_append, ← List.append_assoc mid] at hreleased
      have hhanded := nodes_adoptAll (i := i) (j := j + 1) hreleased hi (by
        rw [List.length_append, length_cells, sizeOfAll_cons, size_node, sizeOfAll_nil]
        omega)
      rw [positions_linkFirst] at hhanded
      rw [addChild, if_pos hmarked]
      simp only [hlifted, hhanded, attach]
      rw [positions, size_node, sizeOfAll_nil, positions_linkFirst, cells_cons, cells_cons]
      simp [n']

end

/-! ## Operations on the marks -/

@[simp] theorem marked_update (a : Arena) (i : Nat) (change : Node → Node) :
    (a.update i change).marked = a.marked := rfl

@[simp] theorem marked_linkChain (a : Arena) (row : List Nat) :
    (a.linkChain row).marked = a.marked := by
  induction row generalizing a with
  | nil => rfl
  | cons i rest ih =>
      cases rest with
      | nil => rfl
      | cons j rest => exact ih (a.link i j)

@[simp] theorem marked_linkFirst (a : Arena) (i : Nat) (row : List Nat) :
    (a.linkFirst i row).marked = a.marked := by
  cases row <;> rfl

@[simp] theorem marked_adoptAll (a : Arena) (parent : Nat) (children : List Nat) :
    (a.adoptAll parent children).marked = a.marked := by
  induction children generalizing a with
  | nil => rfl
  | cons child rest ih => exact ih (a.adopt parent child)

/-- A node that is attached is no longer marked. -/
theorem mem_marked_addChild {a : Arena} {parent child i : Nat} :
    i ∈ (a.addChild parent child).marked ↔ i ∈ a.marked ∧ i ≠ child := by
  by_cases hm : child ∈ (a.adopt parent child).marked
  · rw [addChild, if_pos hm]
    simp [release, adopt]
  · rw [addChild, if_neg hm]
    have hne : i ∈ a.marked → i ≠ child := fun hi he => hm (he ▸ hi)
    simpa [adopt] using hne

/-! ## Forests behind the nodes of an arena -/

/-- Marks lie among the nodes. -/
def Sound (a : Arena) : Prop := ∀ i ∈ a.marked, i < a.size

/-- A forest stands behind the nodes that an arena had: its topmost nodes have no parent,
and those that lift are marked. -/
structure Grows (entityId : String) (a b : Arena) (ds : List Drawing) : Prop where
  nodes : b.nodes = a.nodes ++ cells entityId a.size none ds
  marked : ∀ i, i ∈ b.marked ↔ i ∈ a.marked ∨ i ∈ lifting a.size ds

namespace Grows

variable {a b c : Arena} {ds es : List Drawing}

theorem refl (a : Arena) : Grows entityId a a [] := ⟨by simp, by simp [lifting]⟩

theorem size_eq (h : Grows entityId a b ds) : b.size = a.size + sizeOfAll ds := by
  rw [size, h.nodes, List.length_append, length_cells]
  rfl

theorem sound (h : Grows entityId a b ds) (ha : a.Sound) : b.Sound := by
  intro i hi
  rw [h.size_eq]
  rcases (h.marked i).1 hi with hold | hnew
  · have hlt := ha i hold
    omega
  · exact (mem_lifting_bounds hnew).2

/-- What is built later stands behind what was built before. -/
theorem append (h : Grows entityId a b ds) (h' : Grows entityId b c es) :
    Grows entityId a c (ds ++ es) := by
  constructor
  case nodes => rw [h'.nodes, h.nodes, h.size_eq, cells_append, List.append_assoc]
  case marked =>
    intro i
    rw [h'.marked, h.marked, h.size_eq, lifting_append, List.mem_append, or_assoc]

/-- A node is created behind the others. -/
theorem push (a : Arena) (card : Card) :
    Grows entityId a (a.push ⟨entityId ++ "|" ++ card.path.text, card, false, none, [], none, none⟩)
      [node card none none false []] :=
  ⟨by rw [cells_cons]; rfl, by simp [Arena.push, lifting, Drawing.lifts]⟩

/-- The topmost nodes of a row that have no links are linked in order. -/
theorem linkChain (h : Grows entityId a b ds) (hds : ∀ d ∈ ds, d.withLinks none none = d) :
    Grows entityId a (b.linkChain (positions a.size ds)) (chain ds) := by
  have hlifting : ∀ (es : List Drawing) (start : Nat) (previous : Option Nat),
      lifting start (chainBehind previous es) = lifting start es := by
    intro es
    induction es with
    | nil => exact fun _ _ => rfl
    | cons e rest ih =>
        intro start previous
        rw [chainBehind, lifting, lifting, lifts_withLinks, size_withLinks, ih]
  constructor
  case nodes =>
    cases ds with
    | nil => exact h.nodes
    | cons d rest =>
        obtain ⟨hd, hrest⟩ := List.forall_mem_cons.1 hds
        have hnodes := h.nodes
        rw [← hd] at hnodes
        rw [← List.append_nil (cells entityId a.size none _)] at hnodes
        rw [nodes_linkChain hrest hnodes rfl, List.append_nil]
        rfl
  case marked =>
    intro i
    rw [marked_linkChain, h.marked, chain, hlifting]

variable {card : Card} {next previous : Option Nat} {lifts : Bool} {done : List Drawing}

/-- The drawing behind another one becomes the last of its children. -/
theorem addChild {d : Drawing} (ha : a.Sound)
    (h : Grows entityId a b (node card next previous lifts done :: d :: es)) :
    Grows entityId a (b.addChild a.size (a.size + (sizeOfAll done + 1)))
      (node card next previous lifts (done ++ attach d) :: es) := by
  let k := a.size + (sizeOfAll done + 1)
  let others (i : Nat) : Prop :=
    i ∈ a.marked ∨ lifts = true ∧ i = a.size ∨ i ∈ lifting (k + d.size) es
  have hb : ∀ i, i ∈ b.marked ↔ others i ∨ d.lifts = true ∧ i = k := by
    intro i
    rw [h.marked, mem_lifting_cons, mem_lifting_cons, size_node, or_comm (a := d.lifts = true ∧ _)]
    simp only [others, or_assoc]
    rfl
  -- the other marks stand before the attached drawing, or behind it
  have hothers : ∀ i, others i → i ≠ k := by
    have hpos := d.size_pos
    rintro i (hi | ⟨-, rfl⟩ | hi)
    · exact Nat.ne_of_lt (Nat.lt_of_lt_of_le (ha i hi) (Nat.le_add_right _ _))
    · omega
    · have hbound := (mem_lifting_bounds hi).1
      omega
  constructor
  case nodes =>
    have hchild : k ∈ b.marked ↔ d.lifts = true := by
      rw [hb]
      exact ⟨fun hk => (hk.resolve_left fun ho => hothers k ho rfl).1, fun hl => .inr ⟨hl, rfl⟩⟩
    have hnodes : b.nodes = a.nodes ++ cell entityId a.size none card next previous done ::
        (cells entityId (a.size + 1) (some a.size) done ++
          (cells entityId k none [d] ++ cells entityId (k + d.size) none es)) := by
      rw [h.nodes, cells_cons, ← List.singleton_append (l := es), cells_append]
      simp [k]
    have hk : a.size + 1 + (cells entityId (a.size + 1) (some a.size) done).length = k := by
      rw [length_cells]
      omega
    refine (nodes_addChild (i := a.size) hchild hnodes rfl hk).trans ?_
    have hstart : a.size + 1 + sizeOfAll done = k := by omega
    have hend : a.size + (sizeOfAll done + d.size + 1) = k + d.size := by omega
    simp [cells_cons, cell, cells_append, positions_append, sizeOfAll_attach, hstart, hend]
  case marked =>
    intro i
    have hsize : a.size + (sizeOfAll (done ++ attach d) + 1) = k + d.size := by
      rw [sizeOfAll_append, sizeOfAll_attach]
      omega
    rw [mem_marked_addChild, hb, mem_lifting_cons, size_node, hsize]
    constructor
    · rintro ⟨ho | ⟨-, rfl⟩, hne⟩
      · exact ho
      · contradiction
    · exact fun ho => ⟨.inl ho, hothers i ho⟩

/-- The drawings of a row behind another one become its last children. -/
theorem addChildren (ha : a.Sound)
    (h : Grows entityId a b (node card next previous lifts done :: (ds ++ es))) :
    Grows entityId a (b.addChildren a.size (positions (a.size + (sizeOfAll done + 1)) ds))
      (node card next previous lifts (done ++ attachAll ds) :: es) := by
  induction ds generalizing b done with
  | nil => simpa [positions, Arena.addChildren] using h
  | cons d rest ih =>
      have hfirst := addChild ha h
      have hnext := ih hfirst
      rw [sizeOfAll_append, sizeOfAll_attach, List.append_assoc, ← attachAll_cons] at hnext
      have hsize : a.size + (sizeOfAll done + d.size + 1) =
          a.size + (sizeOfAll done + 1) + d.size := by omega
      rw [hsize] at hnext
      exact hnext

/-- A drawing by itself is marked to hand its children over. -/
theorem mark (h : Grows entityId a b [node card next previous false done]) :
    Grows entityId a (b.mark a.size) [node card next previous true done] := by
  constructor
  case nodes => exact h.nodes
  case marked =>
    intro i
    have hb : i ∈ b.marked ↔ i ∈ a.marked := by simp [h.marked, lifting, Drawing.lifts]
    simp [Arena.mark, lifting, Drawing.lifts, hb, or_comm]

/-- A forest of one drawing becomes its graph, once groups are told. -/
theorem finish {d : Drawing} (h : Grows entityId Arena.empty b [d]) (kind : EntityKind) :
    b.finish entityId kind 0 = d.toGraph entityId kind := by
  have hnodes : b.nodes = (nodesOfAll entityId 0 none [d]).map Node.ungrouped := h.nodes
  have hgroups : ∀ n ∈ nodesOfAll entityId 0 none [d], (Node.grouped ∘ Node.ungrouped) n = id n :=
    fun n hn => by simp [Node.ungrouped, Node.grouped, ← isGroup_of_mem_nodesOfAll hn]
  rw [Arena.finish, normalizeGroups, hnodes, List.map_map, List.map_congr_left hgroups, List.map_id,
    nodesOfAll, nodesOfAll, List.append_nil]
  rfl

end Grows

end Arena

end FlowTree
