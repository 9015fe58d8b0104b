import FlowTree.Proofs.Graph.Insertion
import FlowTree.Proofs.Graph.Preorder
import FlowTree.Proofs.Graph.Symmetry

/-!
# FlowTree.Proofs.Graph.Part

The graph of a part of a document stands in the graph of the whole.

A drawing means the same wherever it stands, as long as no link leads out of it: its nodes
are those it has on its own, with every reference moved by the position it stands at.  Links
back are the ones to watch, since they are written before it is known what a sibling hands
over to its parent.

* `Drawing.Backs` — no link leads back out of a row;
* `Drawing.nodesOfAll_add` — the nodes of a row that stands further behind;
* `Drawing.exists_nodes_of_placed` — the nodes of a row are cut at the drawing of a node;
* `Document.draws_of_drawnIn`, `Document.Draws.exists_row` — drawn rows list the sites of the
  document;
* `Document.Draws.everywhere_shows` — all that is drawn below a site shows sites of the document;
* `Graph.part_of_node` — the part at a node is the stretch of the whole from the node on.
-/

namespace FlowTree

open Drawing

/-! ## Nodes further behind -/

/-- A node that stands so many positions further behind, with all it refers to. -/
def Node.shift (offset : Nat) (n : Node) : Node :=
  { n with
    parent := n.parent.map (offset + ·)
    children := n.children.map (offset + ·)
    previous := n.previous.map (offset + ·)
    next := n.next.map (offset + ·) }

/-- A node without references to what is around it. -/
def Node.detached (n : Node) : Node := { n with parent := none, previous := none, next := none }

@[simp] theorem Node.isGroup_shift (offset : Nat) (n : Node) :
    (n.shift offset).isGroup = n.isGroup := rfl

namespace Drawing

/-! ## Links back -/

/-- No link leads back further than to the start of a row that has so many nodes before
its first drawing here. -/
def Backs : Nat → List Drawing → Prop
  | _, [] => True
  | reach, d :: rest => (∀ k, d.previous = some k → k ≤ reach) ∧ Backs (reach + d.size) rest

theorem Backs.mono {reach reach' : Nat} {ds : List Drawing} (h : Backs reach ds)
    (hle : reach ≤ reach') : Backs reach' ds := by
  induction ds generalizing reach reach' with
  | nil => trivial
  | cons d rest ih =>
    refine ⟨?_, ih h.2 (by omega)⟩
    intro k hk
    have hreach := h.1 k hk
    omega

theorem backs_append {reach : Nat} {xs ys : List Drawing} (hx : Backs reach xs)
    (hy : Backs (reach + sizeOfAll xs) ys) : Backs reach (xs ++ ys) := by
  induction xs generalizing reach with
  | nil => exact hy
  | cons d rest ih =>
    refine ⟨hx.1, ih hx.2 ?_⟩
    rwa [sizeOfAll_cons, ← Nat.add_assoc] at hy

theorem backs_of_unlinked {reach : Nat} {ds : List Drawing} (h : ∀ d ∈ ds, d.previous = none) :
    Backs reach ds := by
  induction ds generalizing reach with
  | nil => trivial
  | cons d rest ih =>
    refine ⟨?_, ih fun e he => h e (List.mem_cons_of_mem d he)⟩
    intro k hk
    rw [h d List.mem_cons_self] at hk
    contradiction

/-- A chain links each drawing to the one right before it. -/
theorem backs_chainBehind {reach : Nat} {before : Option Nat} {ds : List Drawing}
    (h : ∀ k, before = some k → k ≤ reach) : Backs reach (chainBehind before ds) := by
  induction ds generalizing reach before with
  | nil => trivial
  | cons d rest ih =>
    refine ⟨?_, ih ?_⟩
    · simpa using h
    · intro k hk
      have hsize : d.size = k := Option.some.inj hk
      rw [size_withLinks]
      omega

theorem backs_linkFirst {reach : Nat} {ds : List Drawing} (h : Backs reach ds)
    (hreach : 1 ≤ reach) : Backs reach (linkFirst ds) := by
  cases ds with
  | nil => trivial
  | cons d rest =>
    obtain ⟨card, next, previous, lifts, children⟩ := d
    refine ⟨?_, h.2⟩
    intro k hk
    have hone : 1 = k := Option.some.inj hk
    omega

/-- A drawing that hands its children over is still as long, so what stands behind it
reaches back as far. -/
theorem backs_attachAll {reach : Nat} {ds : List Drawing} (h : Backs reach ds)
    (hds : ∀ d ∈ ds, Backs 0 d.children) : Backs reach (attachAll ds) := by
  induction ds generalizing reach with
  | nil => trivial
  | cons d rest ih =>
    have hrest := ih h.2 fun e he => hds e (List.mem_cons_of_mem d he)
    rw [attachAll_cons]
    refine backs_append ?_ (by rwa [sizeOfAll_attach])
    rcases attach_cases d with ⟨-, lifts, ha⟩ | ⟨-, ha⟩ <;> rw [ha]
    · exact ⟨h.1, trivial⟩
    · have hchildren : Backs (reach + 1) d.children :=
        (hds d List.mem_cons_self).mono (Nat.zero_le _)
      exact ⟨h.1, backs_linkFirst hchildren (Nat.le_add_left 1 reach)⟩

/-! ## Moving rows -/

theorem positions_add (offset start : Nat) (ds : List Drawing) :
    positions (offset + start) ds = (positions start ds).map (offset + ·) := by
  induction ds generalizing start with
  | nil => rfl
  | cons d rest ih => rw [positions, positions, List.map_cons, Nat.add_assoc, ih]

/-- The nodes of a row that stands further behind are those of the row, moved: no link
leads back out of the row. -/
theorem nodesOfAll_add {entityId : String} {offset start reach : Nat} {parent : Option Nat}
    {ds : List Drawing} (hreach : reach ≤ start) (hb : Backs reach ds)
    (hds : ∀ d ∈ ds, Everywhere (Backs 0) d) :
    nodesOfAll entityId (offset + start) (parent.map (offset + ·)) ds =
      (nodesOfAll entityId start parent ds).map (Node.shift offset) := by
  induction ds using forest_induction generalizing start reach parent with
  | nil => rfl
  | cons card next previous lifts children rest ihc ihr =>
    have hd := everywhere_iff.1 (hds _ List.mem_cons_self)
    have hrest : ∀ d ∈ rest, Everywhere (Backs 0) d := fun d h => hds d (List.mem_cons_of_mem _ h)
    have hchildren := @ihc (start + 1) 0 (some start) (Nat.zero_le _) hd.1 hd.2
    have hsize := hb.2
    rw [size_node] at hsize
    have hbehind := @ihr (start + (sizeOfAll children + 1))
      (reach + (sizeOfAll children + 1)) parent (by omega) hsize hrest
    have hprevious : previous.map (offset + start - ·) =
        (previous.map (start - ·)).map (offset + ·) := by
      cases previous with
      | none => rfl
      | some k =>
        have hk : k ≤ reach := hb.1 k rfl
        simp only [Option.map_some, Option.some.injEq]
        omega
    have hnext : next.map (offset + start + ·) = (next.map (start + ·)).map (offset + ·) := by
      cases next with
      | none => rfl
      | some k => simp [Nat.add_assoc]
    rw [Option.map_some] at hchildren
    simp only [nodesOfAll, nodes, size_node, List.cons_append, List.map_cons, List.map_append,
      Nat.add_assoc offset, hchildren, hbehind, positions_add]
    simp only [Node.shift, ← hprevious, ← hnext, Nat.add_assoc]

/-! ## Rows cut at a node -/

/-- The nodes of a row are cut at each of them: around the nodes of its drawing stand those
before and behind it.  What holds of all drawings of the row, and of every row below, holds
of the drawing. -/
theorem exists_nodes_of_placed {P : Drawing → Prop} {entityId : String} {start i : Nat}
    {parent : Option Nat} {ds : List Drawing} {n : Node} (hP : ∀ d ∈ ds, P d)
    (hds : ∀ d ∈ ds, Everywhere (fun row => ∀ e ∈ row, P e) d)
    (h : (n, i) ∈ placed entityId start parent ds) :
    ∃ e before after, P e ∧ start + before.length = i ∧
      nodes entityId i n.parent e = n :: nodesOfAll entityId (i + 1) (some i) e.children ∧
      nodesOfAll entityId start parent ds = before ++ (nodes entityId i n.parent e ++ after) := by
  induction ds using forest_induction generalizing start parent with
  | nil => contradiction
  | cons card next previous lifts children rest ihc ihr =>
    have hd := everywhere_iff.1 (hds _ List.mem_cons_self)
    have hrest : ∀ d ∈ rest, P d := fun d h => hP d (List.mem_cons_of_mem _ h)
    have hbelow := fun d h => hds d (List.mem_cons_of_mem _ h)
    rw [placed_cons] at h
    cases List.mem_cons.1 h with
    | inl htop =>
      obtain ⟨rfl, rfl⟩ := Prod.mk.inj htop
      exact ⟨_, [], _, hP _ List.mem_cons_self, rfl, rfl, rfl⟩
    | inr h =>
      -- the node of the first drawing and the nodes below it stand before the rest of the row
      obtain ⟨top, htop⟩ : ∃ top, nodes entityId start parent
          (node card next previous lifts children) =
            top :: nodesOfAll entityId (start + 1) (some start) children := ⟨_, rfl⟩
      rw [nodesOfAll, htop, size_node]
      cases List.mem_append.1 h with
      | inl hc =>
        obtain ⟨e, before, after, he, hlen, hn, hnodes⟩ := ihc hd.1 hd.2 hc
        refine ⟨e, top :: before, after ++ nodesOfAll entityId (start + (sizeOfAll children + 1))
          parent rest, he, ?_, hn, ?_⟩
        · rw [List.length_cons]
          omega
        · rw [hnodes]
          simp
      | inr hr =>
        obtain ⟨e, before, after, he, hlen, hn, hnodes⟩ := ihr hrest hbelow hr
        refine ⟨e, top :: (nodesOfAll entityId (start + 1) (some start) children ++ before), after,
          he, ?_, hn, ?_⟩
        · rw [List.length_cons, List.length_append, length_nodesOfAll]
          omega
        · rw [hnodes]
          simp

/-- On its own a drawing has the nodes that it has where it stands, but for the links and
the parent of its first node. -/
theorem map_shift_nodes {entityId : String} {i : Nat} {parent : Option Nat} {d e : Drawing}
    {n : Node} {below : List Node} (hcard : d.card = e.card) (hchildren : d.children = e.children)
    (hnext : d.next = none) (hprevious : d.previous = none) (hd : Everywhere (Backs 0) d)
    (hn : nodes entityId i parent e = n :: below) :
    (nodes entityId 0 none d).map (Node.shift i) = n.detached :: below := by
  obtain ⟨card, next, previous, lifts, children⟩ := d
  obtain ⟨card', next', previous', lifts', children'⟩ := e
  obtain rfl : card = card' := hcard
  obtain rfl : children = children' := hchildren
  obtain rfl : next = none := hnext
  obtain rfl : previous = none := hprevious
  obtain ⟨rfl, rfl⟩ := List.cons_eq_cons.1 hn
  obtain ⟨hrow, hrows⟩ := everywhere_iff.1 hd
  have hbelow := @nodesOfAll_add entityId i 1 0 (some 0) children (Nat.zero_le 1) hrow hrows
  have htop : positions (i + 1) children = (positions 1 children).map (i + ·) :=
    positions_add i 1 children
  rw [nodes, List.map_cons, ← hbelow]
  simp [Node.shift, Node.detached, htop]

end Drawing

/-! ## What drawings show -/

variable {s : Scheme}

/-- A drawing shows one of the given sites: it has the card of the site, and below it what
the site draws, unless the site hands that over. -/
def Drawing.Shows (s : Scheme) (sites : Site → Prop) (e : Drawing) : Prop :=
  ∃ σ, sites σ ∧ e.card = σ.card s ∧ (σ.lifts s = false → e.children = (σ.draw s).children)

/-- Links do not matter for what is shown. -/
theorem Drawing.shows_linkFirst {sites : Site → Prop} {ds : List Drawing}
    (h : ∀ e ∈ ds, e.Shows s sites) : ∀ e ∈ linkFirst ds, e.Shows s sites := by
  cases ds with
  | nil => exact h
  | cons d rest =>
    obtain ⟨card, next, previous, lifts, children⟩ := d
    intro e he
    cases List.mem_cons.1 he with
    | inl hfirst =>
      subst hfirst
      exact h (node card next previous lifts children) List.mem_cons_self
    | inr hrest => exact h e (List.mem_cons_of_mem _ hrest)

namespace Row

/-- No link leads back out of what rows add to a list of children, when this is so below
their sites. -/
theorem backs_drawAll {rows : List Row}
    (h : ∀ row ∈ rows, ∀ τ ∈ row.sites, Everywhere (Backs 0) (τ.draw s)) :
    Backs 0 (drawAll s rows) := by
  induction rows with
  | nil => trivial
  | cons row rest ih =>
    have hrest : Backs 0 (drawAll s rest) := ih fun r hr => h r (List.mem_cons_of_mem row hr)
    have hrow : Backs 0 (row.draw s) := by
      unfold draw
      split
      · exact backs_chainBehind (by simp)
      · refine backs_of_unlinked ?_
        intro d hd
        obtain ⟨σ, -, rfl⟩ := List.mem_map.1 hd
        exact σ.previous_draw
    refine backs_append (backs_attachAll hrow ?_) (hrest.mono (Nat.zero_le _))
    intro d hd
    obtain ⟨front, σ, after, next, previous, hs, rfl, -⟩ := exists_of_mem_draw hd
    rw [children_withLinks]
    exact (everywhere_iff.1 (h row List.mem_cons_self σ (by rw [hs]; simp))).1

/-- What rows add to a list of children shows their sites, and the sites handed over. -/
theorem shows_drawAll {sites : Site → Prop} {rows : List Row}
    (h : ∀ row ∈ rows, ∀ τ ∈ row.sites,
      sites τ ∧ ∀ e ∈ (τ.draw s).children, e.Shows s sites) :
    ∀ e ∈ drawAll s rows, e.Shows s sites := by
  intro e he
  obtain ⟨row, hrow, he⟩ := List.mem_flatMap.1 he
  obtain ⟨d, hd, he⟩ := List.mem_flatMap.1 he
  obtain ⟨front, σ, after, next, previous, hs, rfl, -⟩ := exists_of_mem_draw hd
  obtain ⟨hσ, hbelow⟩ := h row hrow σ (by rw [hs]; simp)
  have hcard : ((σ.draw s).withLinks next previous).card = σ.card s := by
    rw [card_withLinks, Site.draw_eq]
    rfl
  rcases attach_cases ((σ.draw s).withLinks next previous) with ⟨-, lifts, ha⟩ | ⟨hover, ha⟩ <;>
    rw [ha] at he
  · obtain rfl := List.mem_singleton.1 he
    exact ⟨σ, hσ, hcard, fun _ => children_withLinks next previous _⟩
  · cases List.mem_cons.1 he with
    | inl htop =>
      subst htop
      refine ⟨σ, hσ, hcard, ?_⟩
      intro hlifts
      have hhands : σ.lifts s = true := by
        have hover := hover.1
        rwa [lifts_withLinks, σ.lifts_draw] at hover
      rw [hhands] at hlifts
      contradiction
    | inr hlifted =>
      rw [children_withLinks] at hlifted
      exact shows_linkFirst hbelow e hlifted

end Row

/-- No link leads back out of a row below a site. -/
theorem Site.everywhere_backs (σ : Site) : Everywhere (Backs 0) (σ.draw s) := by
  induction σ using induction (s := s) with
  | step σ ih =>
    have hrows : ∀ row ∈ σ.rows s, ∀ τ ∈ row.sites, Everywhere (Backs 0) (τ.draw s) :=
      fun row hrow τ hτ => ih τ (List.mem_flatMap.2 ⟨row, hrow, hτ⟩)
    rw [everywhere_iff, children_draw]
    exact ⟨Row.backs_drawAll hrows, Row.everywhere_drawAll trivial hrows⟩

namespace Document

variable {d : Document} {row : Row} {σ : Site}

/-- The sites below a site of a document are sites of the document. -/
theorem Draws.below {σ τ : Site} (h : d.Draws s σ) (hτ : τ ∈ σ.below s) : d.Draws s τ := by
  obtain ⟨K, hK, hσ⟩ := h
  rw [Site.below_eq] at hτ
  exact ⟨σ.holder s, hK.under hσ, hτ⟩

/-- The sites of the rows that are drawn in a document are sites of the document. -/
theorem draws_of_drawnIn (hrow : Row.DrawnIn s (d.rootRows s) row) (hσ : σ ∈ row.sites) :
    d.Draws s σ := by
  induction hrow generalizing σ with
  | @top row hrow =>
    have hmem : σ ∈ d.rootSites s := List.mem_flatMap.2 ⟨row, hrow, hσ⟩
    rw [rootSites_eq] at hmem
    exact ⟨d.holder s, .root, hmem⟩
  | under _ hτ hrow ih => exact (ih hτ).below (List.mem_flatMap.2 ⟨_, hrow, hσ⟩)

/-- Every site of a document stands in a row that is drawn. -/
theorem Draws.exists_row (h : d.Draws s σ) :
    ∃ row, Row.DrawnIn s (d.rootRows s) row ∧ σ ∈ row.sites := by
  obtain ⟨K, hK, hσ⟩ := h
  induction hK generalizing σ with
  | root =>
    rw [← rootSites_eq] at hσ
    obtain ⟨row, hrow, hσ⟩ := List.mem_flatMap.1 hσ
    exact ⟨row, .top hrow, hσ⟩
  | @under K τ _ hτ ih =>
    obtain ⟨above, habove, hτ⟩ := ih hτ
    rw [← Site.below_eq] at hσ
    obtain ⟨row, hrow, hσ⟩ := List.mem_flatMap.1 hσ
    exact ⟨row, .under habove hτ hrow, hσ⟩

/-- All that is drawn below a site of a document shows sites of the document. -/
theorem Draws.everywhere_shows {σ : Site} (h : d.Draws s σ) :
    Everywhere (fun row => ∀ e ∈ row, e.Shows s (d.Draws s)) (σ.draw s) := by
  induction σ using Site.induction (s := s) with
  | step σ ih =>
    have hbelow : ∀ row ∈ σ.rows s, ∀ τ ∈ row.sites, τ ∈ σ.below s :=
      fun row hrow τ hτ => List.mem_flatMap.2 ⟨row, hrow, hτ⟩
    have hrows : ∀ row ∈ σ.rows s, ∀ τ ∈ row.sites,
        Everywhere (fun row => ∀ e ∈ row, e.Shows s (d.Draws s)) (τ.draw s) :=
      fun row hrow τ hτ => ih τ (hbelow row hrow τ hτ) (h.below (hbelow row hrow τ hτ))
    rw [everywhere_iff, Site.children_draw]
    refine ⟨Row.shows_drawAll ?_, Row.everywhere_drawAll (by simp) hrows⟩
    intro row hrow τ hτ
    exact ⟨h.below (hbelow row hrow τ hτ), (everywhere_iff.1 (hrows row hrow τ hτ)).1⟩

end Document

/-! ## Parts -/

namespace Graph

/-- A graph stands in another one at a position: it has the nodes that are found there by the
walk along lists of children, which all refer to each other as they do there, only that its
root is linked to nothing and has no parent. -/
structure PartAt (part whole : Graph) (i : Nat) : Prop where
  entityId_eq : part.entityId = whole.entityId
  entityKind_eq : part.entityKind = whole.entityKind
  /-- The walk from the position meets the nodes of the part, in order, and no others. -/
  visits : whole.Visits [i] (List.range' i part.size)
  root_eq : (part.get? 0).map (Node.shift i) = (whole.get? i).map Node.detached
  below_eq : ∀ k, 0 < k → k < part.size → (part.get? k).map (Node.shift i) = whole.get? (i + k)
  isGroup_eq : ∀ k < part.size,
    (part.get? k).map Node.isGroup = (whole.get? (i + k)).map Node.isGroup

/-- A stretch of the nodes of a graph that are those of a drawing where it stands. -/
theorem partAt_of_nodes {whole : Graph} {d e : Drawing} {n : Node} {i : Nat}
    {before after : List Node} (hcard : d.card = e.card) (hchildren : d.children = e.children)
    (hnext : d.next = none) (hprevious : d.previous = none) (hd : Everywhere (Backs 0) d)
    (hlen : before.length = i)
    (hn : Drawing.nodes whole.entityId i n.parent e =
      n :: nodesOfAll whole.entityId (i + 1) (some i) e.children)
    (hwhole : whole.nodes = before ++ (Drawing.nodes whole.entityId i n.parent e ++ after)) :
    (d.toGraph whole.entityId whole.entityKind).PartAt whole i := by
  have hmap := map_shift_nodes hcard hchildren hnext hprevious hd hn
  have hsize : (d.toGraph whole.entityId whole.entityKind).size = e.size := by
    obtain ⟨_, _, _, _, _⟩ := d
    obtain ⟨_, _, _, _, _⟩ := e
    obtain rfl := hchildren
    exact size_toGraph _ _ _
  have hpart (k : Nat) :
      ((d.toGraph whole.entityId whole.entityKind).get? k).map (Node.shift i) =
        (n.detached :: nodesOfAll whole.entityId (i + 1) (some i) e.children)[k]? := by
    rw [← hmap, List.getElem?_map]
    rfl
  have hroot : ((d.toGraph whole.entityId whole.entityKind).get? 0).map (Node.shift i) =
      (whole.get? i).map Node.detached := by
    have hfirst := get?_stretch hwhole hlen e.size_pos
    rw [Nat.add_zero, hn] at hfirst
    rw [hpart, hfirst]
    rfl
  have hbelow (k : Nat) (hk : 0 < k) (hlt : k < e.size) :
      ((d.toGraph whole.entityId whole.entityKind).get? k).map (Node.shift i) =
        whole.get? (i + k) := by
    obtain ⟨k, rfl⟩ := Nat.exists_eq_add_one_of_ne_zero (Nat.ne_of_gt hk)
    rw [hpart, get?_stretch hwhole hlen hlt, hn, List.getElem?_cons_succ, List.getElem?_cons_succ]
  constructor
  case entityId_eq => rfl
  case entityKind_eq => rfl
  case visits =>
    rw [hsize]
    exact visits_positions fun m j => get?_of_mem_placed hwhole hlen
  case root_eq => exact hroot
  case below_eq =>
    intro k hk hlt
    rw [hsize] at hlt
    exact hbelow k hk hlt
  case isGroup_eq =>
    intro k hlt
    rw [hsize] at hlt
    have hshift (m : Option Node) : (m.map (Node.shift i)).map Node.isGroup = m.map Node.isGroup := by
      rw [Option.map_map]
      exact congrArg (fun f => m.map f) (funext fun n => n.isGroup_shift i)
    rw [← hshift]
    by_cases hk : k = 0
    · rw [hk, hroot, Option.map_map]
      rfl
    · rw [hbelow k (by omega) hlt]

/-- The part at the path of a site is the drawing of the site. -/
theorem ofPart?_of_draws (hs : s.Orderly) {d : Document} {σ : Site} (h : d.Draws s σ) :
    ofPart? s d σ.path = some ((σ.draw s).toGraph d.entityId d.kind) := by
  have hroot := h.isRootPath_eq_false
  have haddressed := Document.processorAt?_of_draws hs h
  simp [ofPart?_eq, drawnPart?, hroot, haddressed, h.resolve, Site.draw]

/-- Below the root of a document stand drawings that show its sites, and so on below these. -/
theorem shows_rootRows (d : Document) :
    (∀ e ∈ Row.drawAll s (d.rootRows s), e.Shows s (d.Draws s)) ∧
      ∀ e ∈ Row.drawAll s (d.rootRows s),
        Everywhere (fun row => ∀ e ∈ row, e.Shows s (d.Draws s)) e := by
  have hdraws : ∀ row ∈ d.rootRows s, ∀ τ ∈ row.sites, d.Draws s τ :=
    fun row hrow τ hτ => Document.draws_of_drawnIn (.top hrow) hτ
  constructor
  · refine Row.shows_drawAll ?_
    intro row hrow τ hτ
    have hτ := hdraws row hrow τ hτ
    exact ⟨hτ, (everywhere_iff.1 hτ.everywhere_shows).1⟩
  · refine Row.everywhere_drawAll (by simp) ?_
    intro row hrow τ hτ
    exact (hdraws row hrow τ hτ).everywhere_shows

/-- The part at a node that hands nothing over stands in the whole, where the node does. -/
theorem part_of_not_lifts (hs : s.Orderly) {d : Document} {n : Node} {i : Nat}
    (hn : (ofDocument s d).get? i = some n) (hi : i ≠ 0)
    (hlifts : (s.mappers.get n.card.processor).lifts = false) :
    ∃ g, ofPart? s d n.card.path = some g ∧ g.PartAt (ofDocument s d) i := by
  rw [ofDocument_eq] at hn ⊢
  have hplaced := mem_placed_iff.2 hn
  rw [Document.drawing_eq, placed_cons] at hplaced
  cases List.mem_cons.1 hplaced with
  | inl htop => exact absurd (Prod.mk.inj htop).2 hi
  | inr hbelow =>
    rw [placed_nil, List.append_nil] at hbelow
    obtain ⟨hshows, hrows⟩ := shows_rootRows d
    obtain ⟨e, before, after, ⟨σ, hσ, hcard, hchildren⟩, hlen, hnodes, hwhole⟩ :=
      exists_nodes_of_placed hshows hrows hbelow
    -- the node shows the site that its drawing shows
    have hnode : n.card = σ.card s := by
      rw [← hcard]
      cases e
      exact (congrArg Node.card (List.cons_eq_cons.1 hnodes).1).symm
    have hchildren : (σ.draw s).children = e.children := by
      rw [hnode] at hlifts
      exact (hchildren hlifts).symm
    have hown : (σ.draw s).card = e.card := by
      rw [hcard, Site.draw_eq]
      rfl
    -- behind the root of the document stand the nodes of what is drawn below
    let whole := (d.drawing s).toGraph d.entityId d.kind
    obtain ⟨top, htop⟩ : ∃ top, whole.nodes =
        top :: nodesOfAll d.entityId 1 (some 0) (Row.drawAll s (d.rootRows s)) := by
      simp only [whole, Document.drawing_eq]
      exact ⟨_, rfl⟩
    rw [hwhole, ← List.cons_append] at htop
    rw [hnode]
    have hlength : (top :: before).length = i := by
      rw [List.length_cons]
      omega
    have hpart : ((σ.draw s).toGraph d.entityId d.kind).PartAt whole i :=
      partAt_of_nodes hown hchildren σ.next_draw σ.previous_draw σ.everywhere_backs hlength
        hnodes htop
    exact ⟨_, ofPart?_of_draws hs hσ, hpart⟩

/-- **Parts.** The part of a document at a drawn node that is no entry is the stretch of the
whole graph from the node on: the node and all that is below it, in the same order, with the
same ids, cards and groups, and with the same references as far as these stay in the part. -/
theorem part_of_node {d : Document} {n : Node} {i : Nat}
    (hn : (ofDocument Context.builtin.scheme d).get? i = some n) (hi : i ≠ 0)
    (hentry : n.card.processor ≠ "from") :
    ∃ g, ofPart? Context.builtin.scheme d n.card.path = some g ∧
      g.PartAt (ofDocument Context.builtin.scheme d) i := by
  have hlifts := Context.lifts_builtin_of_ne hentry
  exact part_of_not_lifts Context.orderly_builtin hn hi hlifts

/-- The part of a route at a step between two others, which holds a `from` that hands its
own step over. -/
theorem part_of_node_filter :
    let inner : Json := .obj [("from", .obj [("steps", .arr [.obj [("log", .obj [])]])])]
    let filter : Json := .obj [("filter", .obj [("steps", .arr [inner, .obj [("stop", .obj [])]])])]
    let entry : Json := .obj [("uri", .str "timer:t"), ("steps", .arr [filter, .obj [("log", .null)]])]
    let d : Document := ⟨.obj [("route", .obj [("from", entry)])], "route"⟩
    let path := (((d.rootPath.child "from").child "steps").elementAt 0).child "filter"
    (∃ n, (ofDocument Context.builtin.scheme d).get? 2 = some n ∧ n.card.path = path ∧
      n.parent = some 0 ∧ n.previous = some 1 ∧ n.next = some 6) ∧
      ∃ g, ofPart? Context.builtin.scheme d path = some g ∧ g.size = 4 ∧
        g.PartAt (ofDocument Context.builtin.scheme d) 2 := by
  intro inner filter entry d path
  obtain ⟨n, hn, hfields⟩ : ∃ n, (ofDocument Context.builtin.scheme d).get? 2 = some n ∧
      (n.card.path, n.card.processor, n.parent, n.previous, n.next) =
        (path, "filter", some 0, some 1, some 6) := Option.map_eq_some_iff.1 (by decide +kernel)
  simp only [Prod.mk.injEq] at hfields
  obtain ⟨hpath, hprocessor, hparent, hprevious, hnext⟩ := hfields
  obtain ⟨g, hg, hpart⟩ := part_of_node hn (by decide) (by rw [hprocessor]; decide)
  rw [hpath] at hg
  have hsize : (ofPart? Context.builtin.scheme d path).map size = some 4 := by decide +kernel
  rw [hg] at hsize
  exact ⟨⟨n, hn, hpath, hparent, hprevious, hnext⟩, g, hg, Option.some.inj hsize, hpart⟩

end Graph

end FlowTree
