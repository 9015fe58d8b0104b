import FlowTree.Proofs.Graph.Drawing

/-!
# FlowTree.Proofs.Graph.Placed

The nodes of drawings in a row, each with the position it is created at.

A row of drawings is taken apart at its first node: behind it come the nodes below it,
and behind these the nodes of the rest of the row (`placed_cons`).  Every law of positions
follows that cut, by `forest_induction`.

* `exists_placed_of_mem_positions` — the positions of a row hold its topmost nodes;
* `parent_cases`, `exists_placed_of_mem_children` — parents and lists of children name
  each other;
* `get?_stretch`, `get?_of_mem_placed` — a drawing whose nodes stand in a graph has them
  there at the same distances;
* `perm_positions` — a row and the lists of children in it hold every position once.
-/

namespace FlowTree

namespace Drawing

/-- Rows of drawings are taken apart at their first node: what holds of what lies below
it and of the rest of the row holds of the row. -/
@[elab_as_elim]
theorem forest_induction {motive : List Drawing → Prop} (nil : motive [])
    (cons : ∀ card next previous lifts children rest, motive children → motive rest →
      motive (node card next previous lifts children :: rest)) :
    (ds : List Drawing) → motive ds
  | [] => nil
  | node card next previous lifts children :: rest =>
    cons card next previous lifts children rest (forest_induction nil cons children)
      (forest_induction nil cons rest)

/-- The nodes of drawings in a row with their positions, the first of them at `start`. -/
def placed (entityId : String) (start : Nat) (parent : Option Nat) (ds : List Drawing) :
    List (Node × Nat) :=
  (nodesOfAll entityId start parent ds).zipIdx start

variable {entityId : String} {start : Nat} {parent : Option Nat}

/-! ## Positions -/

theorem size_toGraph (entityId : String) (kind : EntityKind) (d : Drawing) :
    (d.toGraph entityId kind).size = d.size := length_nodes entityId 0 none d

@[simp] theorem placed_nil : placed entityId start parent [] = [] := rfl

/-- Behind the first node of a row come those below it, then those of the rest. -/
theorem placed_cons (card : Card) (next previous : Option Nat) (lifts : Bool)
    (children rest : List Drawing) :
    placed entityId start parent (node card next previous lifts children :: rest) =
      ({ id := entityId ++ "|" ++ card.path.text
         card
         isGroup := !children.isEmpty
         parent
         children := positions (start + 1) children
         previous := previous.map (start - ·)
         next := next.map (start + ·) }, start) ::
        (placed entityId (start + 1) (some start) children ++
          placed entityId (start + (sizeOfAll children + 1)) parent rest) := by
  have hs : start + 1 + sizeOfAll children = start + (sizeOfAll children + 1) := by omega
  simp only [placed, nodesOfAll, nodes, size_node, List.cons_append, List.zipIdx_cons,
    List.zipIdx_append, length_nodesOfAll, hs]

/-- A row in two parts. -/
theorem placed_append (xs ys : List Drawing) :
    placed entityId start parent (xs ++ ys) =
      placed entityId start parent xs ++
        placed entityId (start + sizeOfAll xs) parent ys := by
  induction xs generalizing start with
  | nil => simp
  | cons d rest ih =>
      cases d
      simp only [List.cons_append, placed_cons, ih, List.append_assoc, sizeOfAll_cons, size_node,
        Nat.add_assoc]

/-- A row of one drawing has the nodes of the drawing. -/
theorem placed_singleton (d : Drawing) :
    placed entityId start parent [d] = (nodes entityId start parent d).zipIdx start := by
  rw [placed, nodesOfAll, nodesOfAll, List.append_nil]

/-- The nodes of a graph with their positions. -/
theorem mem_placed_iff {kind : EntityKind} {d : Drawing} {n : Node} {i : Nat} :
    (n, i) ∈ placed entityId 0 none [d] ↔ (d.toGraph entityId kind).get? i = some n := by
  rw [placed_singleton, List.mem_zipIdx_iff_getElem?]
  rfl

section

variable {g : Graph} {d : Drawing} {before after : List Node}

/-- The nodes of a drawing are found from where they start in a graph. -/
theorem get?_stretch (hg : g.nodes = before ++ (nodes entityId start parent d ++ after))
    (hstart : before.length = start) {k : Nat} (hk : k < d.size) :
    g.get? (start + k) = (nodes entityId start parent d)[k]? := by
  rw [Graph.get?, hg, List.getElem?_append_right (by omega), hstart, Nat.add_sub_cancel_left,
    List.getElem?_append_left (by rwa [length_nodes])]

theorem get?_of_mem_placed (hg : g.nodes = before ++ (nodes entityId start parent d ++ after))
    (hstart : before.length = start) {n : Node} {i : Nat}
    (h : (n, i) ∈ placed entityId start parent [d]) : g.get? i = some n := by
  rw [placed_singleton, List.mem_zipIdx_iff_le_and_getElem?_sub] at h
  obtain ⟨hle, hn⟩ := h
  have hlt : i - start < d.size := by
    have hbound := (List.getElem?_eq_some_iff.1 hn).1
    rwa [length_nodes] at hbound
  have hstretch := get?_stretch hg hstart hlt
  rwa [Nat.add_sub_cancel' hle, hn] at hstretch

end

/-- The positions of a row are those of its topmost nodes, which have the row's parent. -/
theorem exists_placed_of_mem_positions {ds : List Drawing} {i : Nat}
    (h : i ∈ positions start ds) :
    ∃ n, (n, i) ∈ placed entityId start parent ds ∧ n.parent = parent := by
  induction ds generalizing start with
  | nil => simp [positions] at h
  | cons d rest ih =>
      obtain ⟨card, next, previous, lifts, children⟩ := d
      rw [placed_cons]
      rcases List.mem_cons.1 h with rfl | hr
      · exact ⟨_, List.mem_cons_self, rfl⟩
      · obtain ⟨n, hn, hp⟩ := ih hr
        exact ⟨n, List.mem_cons_of_mem _ (List.mem_append_right _ hn), hp⟩

/-! ## Parents and children -/

/-- A node is topmost in its row, or it stands in the list of children of its parent. -/
theorem parent_cases {ds : List Drawing} {n : Node} {i : Nat}
    (h : (n, i) ∈ placed entityId start parent ds) :
    (n.parent = parent ∧ i ∈ positions start ds) ∨
      ∃ m j, (m, j) ∈ placed entityId start parent ds ∧ n.parent = some j ∧ i ∈ m.children := by
  induction ds using forest_induction generalizing start parent with
  | nil => simp at h
  | cons card next previous lifts children rest ihc ihr =>
      rw [placed_cons] at h ⊢
      rcases List.mem_cons.1 h with htop | h
      · obtain ⟨rfl, rfl⟩ := Prod.mk.inj htop
        exact .inl ⟨rfl, List.mem_cons_self⟩
      rcases List.mem_append.1 h with hc | hr
      · refine .inr ?_
        rcases ihc hc with ⟨hp, hi⟩ | ⟨m, j, hm, hp, hi⟩
        · exact ⟨_, start, List.mem_cons_self, hp, hi⟩
        · exact ⟨m, j, List.mem_cons_of_mem _ (List.mem_append_left _ hm), hp, hi⟩
      · rcases ihr hr with ⟨hp, hi⟩ | ⟨m, j, hm, hp, hi⟩
        · exact .inl ⟨hp, List.mem_cons_of_mem _ hi⟩
        · exact .inr ⟨m, j, List.mem_cons_of_mem _ (List.mem_append_right _ hm), hp, hi⟩

/-- What a list of children names is there, and names the node of the list as parent. -/
theorem exists_placed_of_mem_children {ds : List Drawing} {m : Node} {i j : Nat}
    (hm : (m, j) ∈ placed entityId start parent ds) (hi : i ∈ m.children) :
    ∃ n, (n, i) ∈ placed entityId start parent ds ∧ n.parent = some j := by
  induction ds using forest_induction generalizing start parent with
  | nil => simp at hm
  | cons card next previous lifts children rest ihc ihr =>
      rw [placed_cons] at hm ⊢
      rcases List.mem_cons.1 hm with htop | hm
      · obtain ⟨rfl, rfl⟩ := Prod.mk.inj htop
        obtain ⟨n, hn, hp⟩ := exists_placed_of_mem_positions hi
        exact ⟨n, List.mem_cons_of_mem _ (List.mem_append_left _ hn), hp⟩
      rcases List.mem_append.1 hm with hc | hr
      · obtain ⟨n, hn, hp⟩ := ihc hc
        exact ⟨n, List.mem_cons_of_mem _ (List.mem_append_left _ hn), hp⟩
      · obtain ⟨n, hn, hp⟩ := ihr hr
        exact ⟨n, List.mem_cons_of_mem _ (List.mem_append_right _ hn), hp⟩

/-- The positions of a row and those in the lists of children below it are all positions
that the row takes up, each of them once. -/
theorem perm_positions (ds : List Drawing) :
    (positions start ds ++ (nodesOfAll entityId start parent ds).flatMap Node.children).Perm
      (List.range' start (sizeOfAll ds)) := by
  induction ds using forest_induction generalizing start parent with
  | nil => exact .refl _
  | cons card next previous lifts children rest ihc ihr =>
      have hsplit : List.range' start (sizeOfAll children + 1 + sizeOfAll rest) =
          start :: (List.range' (start + 1) (sizeOfAll children) ++
            List.range' (start + (sizeOfAll children + 1)) (sizeOfAll rest)) := by
        have hs : start + (sizeOfAll children + 1) = start + 1 + sizeOfAll children := by omega
        rw [Nat.add_right_comm, List.range'_succ, ← List.range'_append_1, hs]
      simp only [positions, nodesOfAll, nodes, size_node, sizeOfAll_cons, List.cons_append,
        List.flatMap_cons, List.flatMap_append, hsplit]
      refine .cons start ?_
      refine List.Perm.trans ?_ ((@ihc (start + 1) (some start)).append
        (@ihr (start + (sizeOfAll children + 1)) parent))
      -- the positions of the rest of the row move behind what lies below its first node
      rw [← List.append_assoc, ← List.append_assoc, ← List.append_assoc]
      refine List.Perm.append_right _ ?_
      rw [List.append_assoc]
      exact List.perm_append_comm

end Drawing

end FlowTree
