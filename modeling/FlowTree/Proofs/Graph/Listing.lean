import FlowTree.Proofs.Graph.Refinement
import Mathlib.Data.List.Basic

/-!
# FlowTree.Proofs.Graph.Listing

What a graph shows of a document, without positions.

An entry is the card of a node with the path of the node's parent.  A node keeps its
entry when nodes before it come or go, so the entries of a graph can be compared with
those of the graph after an edit.

* `Graph.entries` — the entries of a graph, in the order of its nodes;
* `Site.listing_eq`, `Graph.entries_ofDocument` — the entries of a site, and of a
  document, are put together from those of the sites below;
* `Site.listing_relocate` — a site that stands elsewhere lists the same at other paths.
-/

namespace FlowTree

/-- What a node shows, and the path of its parent. -/
structure Entry where
  card : Card
  up : Option Path
  deriving DecidableEq

/-- An entry at the path that `f` makes of its own. -/
def Entry.relocate (f : Path → Path) (e : Entry) : Entry :=
  ⟨{ e.card with path := f e.card.path }, e.up.map f⟩

/-- The entry of a node of a graph. -/
def Graph.entryOf (g : Graph) (n : Node) : Entry :=
  ⟨n.card, (n.parent.bind g.get?).map fun m => m.card.path⟩

/-- The entries of a graph, in the order of its nodes. -/
def Graph.entries (g : Graph) : List Entry := g.nodes.map g.entryOf

namespace Drawing

mutual

/-- The entries of a drawing below a node with the given path. -/
def entries (up : Option Path) : Drawing → List Entry
  | node card _ _ _ children => ⟨card, up⟩ :: entriesOfAll (some card.path) children

/-- The entries of drawings in a row. -/
def entriesOfAll (up : Option Path) : List Drawing → List Entry
  | [] => []
  | d :: rest => entries up d ++ entriesOfAll up rest

end

/-! ## Entries of drawings -/

theorem entriesOfAll_append (up : Option Path) (xs ys : List Drawing) :
    entriesOfAll up (xs ++ ys) = entriesOfAll up xs ++ entriesOfAll up ys := by
  induction xs with
  | nil => rfl
  | cons d rest ih => simp only [List.cons_append, entriesOfAll, ih, List.append_assoc]

theorem entriesOfAll_flatMap {α : Type} (up : Option Path) (f : α → List Drawing) (xs : List α) :
    entriesOfAll up (xs.flatMap f) = xs.flatMap fun x => entriesOfAll up (f x) := by
  induction xs with
  | nil => rfl
  | cons x rest ih => simp only [List.flatMap_cons, entriesOfAll_append, ih]

/-- Links do not show in entries. -/
theorem entriesOfAll_linkFirst (up : Option Path) (ds : List Drawing) :
    entriesOfAll up (linkFirst ds) = entriesOfAll up ds := by
  rcases ds with - | ⟨⟨card, next, previous, lifts, children⟩, rest⟩ <;> rfl

/-- What attaching adds has the entry of the drawing, and behind it the entries of its
children: below it, or below the parent when they are handed over. -/
theorem entriesOfAll_attach (up : Option Path) (card : Card) (next previous : Option Nat)
    (lifts : Bool) (children : List Drawing) :
    entriesOfAll up (attach (node card next previous lifts children)) =
      ⟨card, up⟩ :: entriesOfAll (if lifts then up else some card.path) children := by
  cases lifts with
  | false => simp [attach, entriesOfAll, entries]
  | true => simp [attach, entriesOfAll, entries, entriesOfAll_linkFirst]

theorem entriesOfAll_attachAll_chainBehind (up : Option Path) (before : Option Nat)
    (ds : List Drawing) :
    entriesOfAll up (attachAll (chainBehind before ds)) = entriesOfAll up (attachAll ds) := by
  induction ds generalizing before with
  | nil => rfl
  | cons d rest ih =>
      obtain ⟨card, next, previous, lifts, children⟩ := d
      simp only [chainBehind, withLinks, attachAll, List.flatMap_cons, entriesOfAll_append,
        entriesOfAll_attach] at ih ⊢
      rw [ih]

/-- The entries of the nodes of a row, when the nodes are those of a graph. -/
theorem map_nodesOfAll {g : Graph} {entityId : String} {start : Nat} {parent : Option Nat}
    {up : Option Path} {ds : List Drawing}
    (hg : ∀ n i, (n, i) ∈ placed entityId start parent ds → g.get? i = some n)
    (hup : (parent.bind g.get?).map (fun m => m.card.path) = up) :
    (nodesOfAll entityId start parent ds).map g.entryOf = entriesOfAll up ds := by
  induction ds using forest_induction generalizing start parent up with
  | nil => rfl
  | cons card next previous lifts children rest ihc ihr =>
      rw [placed_cons] at hg
      have htop := hg _ _ List.mem_cons_self
      have hc := @ihc (start + 1) (some start) (some card.path)
        (fun n i hn => hg n i (List.mem_cons_of_mem _ (List.mem_append_left _ hn)))
        (by rw [Option.bind_some, htop]; rfl)
      have hr := @ihr (start + (sizeOfAll children + 1)) parent up
        (fun n i hn => hg n i (List.mem_cons_of_mem _ (List.mem_append_right _ hn))) hup
      rw [nodesOfAll, nodes, size_node, List.cons_append, List.map_cons, List.map_append, hc, hr,
        Graph.entryOf, hup]
      rfl

theorem entries_toGraph (entityId : String) (kind : EntityKind) (d : Drawing) :
    (d.toGraph entityId kind).entries = d.entries none := by
  have h := @map_nodesOfAll (d.toGraph entityId kind) entityId 0 none none [d]
    (fun n i => mem_placed_iff.1) rfl
  rwa [nodesOfAll, nodesOfAll, entriesOfAll, entriesOfAll, List.append_nil, List.append_nil] at h

end Drawing

open Drawing

variable {s : Scheme}

/-! ## Entries of sites -/

namespace Site

/-- The entries that a site adds below a node with the given path. -/
def listing (s : Scheme) (up : Option Path) (σ : Site) : List Entry :=
  entriesOfAll up (attach (σ.draw s))

end Site

theorem Row.entriesOfAll_draw (up : Option Path) (row : Row) :
    entriesOfAll up (attachAll (row.draw s)) = row.sites.flatMap (Site.listing s up) := by
  have h : entriesOfAll up (attachAll (row.sites.map (Site.draw s))) =
      row.sites.flatMap (Site.listing s up) := by
    rw [attachAll, List.flatMap_map, entriesOfAll_flatMap]
    rfl
  unfold draw
  split
  · rw [chain, entriesOfAll_attachAll_chainBehind, h]
  · exact h

namespace Site

/-- The path that the sites below a site have as that of their parent. -/
def upBelow (s : Scheme) (up : Option Path) (σ : Site) : Option Path :=
  if σ.lifts s then up else some σ.path

/-- A site is the parent of those below it, or hands them over to its own. -/
theorem upBelow_cases (s : Scheme) (up : Option Path) (σ : Site) :
    σ.upBelow s up = up ∨ σ.upBelow s up = some σ.path := by
  unfold upBelow
  split
  · exact .inl rfl
  · exact .inr rfl

/-- The entries of a site: its own, and those of the sites below it. -/
theorem listing_eq (up : Option Path) (σ : Site) :
    listing s up σ =
      ⟨σ.card s, up⟩ :: (σ.below s).flatMap (listing s (σ.upBelow s up)) := by
  rw [listing, draw_eq, entriesOfAll_attach, below, List.flatMap_assoc, entriesOfAll_flatMap]
  simp only [Row.entriesOfAll_draw]
  rfl

end Site

namespace Graph

/-- The entries of a graph that is drawn of rows: that of its root, and those of the sites
in the rows. -/
theorem entries_of_rows (entityId : String) (kind : EntityKind) (card : Card) (lifts : Bool)
    (rows : List Row) :
    ((Drawing.node card none none lifts
        (rows.flatMap fun row => attachAll (row.draw s))).toGraph entityId kind).entries =
      ⟨card, none⟩ :: (rows.flatMap Row.sites).flatMap (Site.listing s (some card.path)) := by
  rw [entries_toGraph, Drawing.entries, List.flatMap_assoc, entriesOfAll_flatMap]
  simp only [Row.entriesOfAll_draw]

/-- The entries of a document: that of its root, and those of the sites below. -/
theorem entries_ofDocument (d : Document) :
    (ofDocument s d).entries =
      ⟨.ofEntity s.catalog d.root d.kind d.definition?, none⟩ ::
        (d.rootSites s).flatMap (Site.listing s (some d.rootPath)) := by
  rw [ofDocument_eq, Document.drawing_eq]
  exact entries_of_rows _ _ _ _ _

/-- The entries of the graph of a site: that of the site, and those of the sites below. -/
theorem entries_toGraph_draw (entityId : String) (kind : EntityKind) (σ : Site) :
    ((σ.draw s).toGraph entityId kind).entries =
      ⟨σ.card s, none⟩ :: (σ.below s).flatMap (Site.listing s (some σ.path)) := by
  rw [Site.draw_eq]
  exact entries_of_rows _ _ _ _ _

end Graph

/-! ## Sites that stand elsewhere -/

/-- `f` moves everything at and below a path together. -/
def Path.Moves (f : Path → Path) (p : Path) : Prop :=
  ∀ q rest, q.segments = p.segments ++ rest → (f q).segments = (f p).segments ++ rest

namespace Path

variable {f : Path → Path} {p q : Path}

theorem Moves.of_below (h : Moves f p) (hq : p.segments <+: q.segments) : Moves f q := by
  obtain ⟨below, hb⟩ := hq
  intro r rest hr
  rw [h r (below ++ rest) (by rw [hr, ← hb, List.append_assoc]), h q below hb.symm,
    List.append_assoc]

theorem Moves.join (h : Moves f p) (s : Segment) : f (p.join s) = (f p).join s :=
  eq_of_segments (h _ [s] rfl)

theorem Moves.child (h : Moves f p) (key : String) : f (p.child key) = (f p).child key :=
  h.join _

theorem Moves.elementAt (h : Moves f p) (i : Nat) : f (p.elementAt i) = (f p).elementAt i :=
  h.join _

end Path

namespace Site

variable {f : Path → Path}

/-- The site with the path that `f` makes of its own. -/
def relocate (f : Path → Path) (σ : Site) : Site := { σ with path := f σ.path }

theorem ofStep_relocate {e : Path} (h : ∀ key, f (e.child key) = (f e).child key) (item : Json) :
    ofStep (f e) item = (ofStep e item).map (relocate f) := by
  unfold ofStep
  split
  · simp [relocate, h]
  · rfl

theorem ofClause_relocate {e : Path} (h : ∀ key, f (e.child key) = (f e).child key)
    (name : String) (item : Json) :
    ofClause name (f e) item = (ofClause name e item).map (relocate f) := by
  unfold ofClause
  split
  · split <;> simp [relocate, h]
  · rfl

theorem ofElements_relocate {reading : Path → Json → List Site} {array : Path}
    (hf : Path.Moves f array)
    (hr : ∀ e item, array.segments <+: e.segments →
      reading (f e) item = (reading e item).map (relocate f)) (i : Nat) (items : List Json) :
    ofElements reading (f array) i items = (ofElements reading array i items).map (relocate f) := by
  induction items generalizing i with
  | nil => rfl
  | cons item rest ih =>
      rw [ofElements, ofElements, List.map_append, ← ih, ← hf.elementAt,
        hr _ _ (Path.prefix_elementAt array i)]

theorem ofValue_relocate {path : Path} (hf : Path.Moves f path) (p : StepsProperty) (value : Json) :
    ofValue (f path) p value = (ofValue path p value).map (relocate f) := by
  unfold ofValue
  split
  · split
    · rfl
    · exact ofElements_relocate hf (fun e item he =>
        ofStep_relocate (fun key => (hf.of_below he).child key) item) _ _
    · exact ofElements_relocate hf (fun e item he =>
        ofClause_relocate (fun key => (hf.of_below he).child key) p.name item) _ _
  · rfl
  · split <;> rfl

theorem ofProperty_relocate {path : Path} (hf : Path.Moves f path) (p : StepsProperty)
    (fields : Fields Json) :
    ofProperty (f path) p fields = (ofProperty path p fields).map (relocate f) := by
  unfold ofProperty
  rw [← hf.child]
  cases Fields.get? p.name fields with
  | none => rfl
  | some value => exact ofValue_relocate (hf.of_below (Path.prefix_child path p.name)) p value

/-- Below a site that stands elsewhere stand the same sites at other paths. -/
theorem below_relocate {σ : Site} (hf : Path.Moves f σ.path) :
    (σ.relocate f).below s = (σ.below s).map (relocate f) := by
  obtain ⟨path, processor, definition⟩ := σ
  simp only [below, rows, relocate, mapper, properties]
  cases definition with
  | obj fields =>
      simp only [List.flatMap_map, Row.ofProperty, ofProperty_relocate hf, List.map_flatMap]
  | null | bool | num | str | arr => rfl

/-! ## Listings -/

/-- The entries of a site have paths at and below its own, and name parents there or the
given one. -/
theorem prefix_of_mem_listing {σ : Site} {up : Option Path} {e : Entry}
    (h : e ∈ listing s up σ) :
    σ.path.segments <+: e.card.path.segments ∧
      (e.up = up ∨ ∃ u, e.up = some u ∧ σ.path.segments <+: u.segments) := by
  induction σ using induction (s := s) generalizing up with
  | step σ ih =>
      rw [listing_eq] at h
      rcases List.mem_cons.1 h with rfl | h
      · exact ⟨List.prefix_rfl, .inl rfl⟩
      · obtain ⟨τ, hτ, he⟩ := List.mem_flatMap.1 h
        obtain ⟨hp, hu⟩ := ih τ hτ he
        have hb := prefix_of_mem_below hτ
        refine ⟨hb.trans hp, ?_⟩
        rcases hu with hu | ⟨u, hu, hp⟩
        · rw [hu]
          rcases σ.upBelow_cases s up with hup | hup
          · exact .inl hup
          · exact .inr ⟨σ.path, hup, List.prefix_rfl⟩
        · exact .inr ⟨u, hu, hb.trans hp⟩

/-- A site that stands elsewhere lists the same at other paths. -/
theorem listing_relocate {σ : Site} (hf : Path.Moves f σ.path) (up : Option Path) :
    listing s (up.map f) (σ.relocate f) = (listing s up σ).map (Entry.relocate f) := by
  induction σ using induction (s := s) generalizing up with
  | step σ ih =>
      have hup : (σ.relocate f).upBelow s (up.map f) = (σ.upBelow s up).map f := by
        unfold upBelow
        rw [apply_ite (Option.map f)]
        rfl
      rw [listing_eq, listing_eq, below_relocate hf, List.map_cons, List.flatMap_map,
        List.map_flatMap, hup]
      congr 1
      refine List.flatMap_congr fun τ hτ => ?_
      exact ih τ hτ (hf.of_below (prefix_of_mem_below hτ)) _

end Site

end FlowTree
