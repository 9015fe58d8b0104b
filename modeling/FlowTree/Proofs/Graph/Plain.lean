import FlowTree.Proofs.Graph.Identity

/-!
# FlowTree.Proofs.Graph.Plain

Graphs without the mappers of processors.

Mappers decide how nodes are put together, and with that who is the parent of whom and
what is linked.  The nodes themselves come from the steps properties that are drawn, and
these a mapper takes from the catalog or lists on its own.  So without mappers the same
nodes are drawn, as long as the mappers list what the catalog declares:

* `Site.cards_eq` — the cards of a site are its own and those of the sites below it, whoever
  their parents are;
* `Scheme.DeclaredBut` — mappers that list what the catalog declares for all processors but
  one, which it takes for a leaf;
* `Site.cards_plain`, `Graph.cards_plain` — without the mappers the cards below this one are
  missing;
* `Graph.contents_plain` — the nodes that the built-in catalog alone draws.
-/

namespace FlowTree

open FlowTree.Path

variable {s : Scheme} {leaf : String}

/-! ## Cards without parents -/

namespace Site

/-- The cards of a site and of the sites below it, in order. -/
def cards (s : Scheme) (σ : Site) : List Card := (σ.listing s none).map Entry.card

/-- Whoever the parents are, the cards are the same. -/
theorem map_card_listing (up : Option Path) (σ : Site) :
    (σ.listing s up).map Entry.card = σ.cards s := by
  induction σ using induction (s := s) generalizing up with
  | step σ ih =>
      rw [cards, listing_eq, listing_eq, List.map_cons, List.map_cons, List.map_flatMap,
        List.map_flatMap]
      congr 1
      refine List.flatMap_congr fun τ hτ => ?_
      rw [ih τ hτ, ih τ hτ]

theorem cards_eq (σ : Site) :
    σ.cards s = σ.card s :: (σ.below s).flatMap (cards s) := by
  rw [cards, listing_eq, List.map_cons, List.map_flatMap]
  simp only [map_card_listing]

theorem prefix_of_mem_cards {σ : Site} {c : Card} (h : c ∈ σ.cards s) :
    σ.path.segments <+: c.path.segments := by
  obtain ⟨e, he, rfl⟩ := List.mem_map.1 h
  exact (prefix_of_mem_listing he).1

end Site

/-- The cards of a document: that of its root, and those of the sites below. -/
theorem Graph.map_card_nodes (d : Document) :
    (ofDocument s d).nodes.map Node.card =
      .ofEntity s.catalog d.root d.kind d.definition? ::
        (d.holder s).sites.flatMap (Site.cards s) := by
  have hcards : (ofDocument s d).nodes.map Node.card =
      (ofDocument s d).entries.map Entry.card := by
    rw [entries, List.map_map]
    rfl
  rw [hcards, entries_ofDocument, List.map_cons, List.map_flatMap, Document.rootSites_eq]
  simp only [Site.map_card_listing]

/-! ## Cards below a processor -/

/-- A card is that of a definition inside the definition of a processor. -/
def Card.Below (processor : String) (c m : Card) : Prop :=
  m.processor = processor ∧ m.path.segments <+: c.path.segments ∧ m.path ≠ c.path

instance (processor : String) (c m : Card) : Decidable (c.Below processor m) :=
  inferInstanceAs (Decidable (_ ∧ _ ∧ _))

/-- The cards that are below no card of a processor. -/
def Card.outside (processor : String) (cards : List Card) : List Card :=
  cards.filter fun c => ∀ m ∈ cards, ¬ c.Below processor m

namespace Holder

variable {K : Holder} {c : Card}

theorem exists_key_of_mem_cards (h : c ∈ K.sites.flatMap (Site.cards s)) :
    ∃ key, (K.path.child key).segments <+: c.path.segments := by
  obtain ⟨τ, hτ, hc⟩ := List.mem_flatMap.1 h
  obtain ⟨key, hk⟩ := K.exists_key_of_mem hτ
  exact ⟨key, hk.trans (Site.prefix_of_mem_cards hc)⟩

/-- The card of a holder is below none of the cards that it holds. -/
theorem not_below (hpath : c.path = K.path) (processor : String) :
    ∀ m ∈ c :: K.sites.flatMap (Site.cards s), ¬ c.Below processor m := by
  intro m hm hbelow
  rcases List.mem_cons.1 hm with rfl | hm
  · exact hbelow.2.2 rfl
  · obtain ⟨key, hk⟩ := exists_key_of_mem_cards hm
    have hup := hbelow.2.1
    rw [hpath] at hup
    exact not_prefix_of_child K.path key (hk.trans hup)

/-- Below a holder of the processor no card is left. -/
theorem outside_of_processor (hpath : c.path = K.path) :
    Card.outside c.processor (c :: K.sites.flatMap (Site.cards s)) = [c] := by
  have hnone := not_below (s := s) hpath c.processor
  have hall : ∀ x ∈ K.sites.flatMap (Site.cards s), x.Below c.processor c := by
    intro x hx
    obtain ⟨key, hk⟩ := exists_key_of_mem_cards hx
    rw [← hpath] at hk
    refine ⟨rfl, (prefix_child c.path key).trans hk, fun heq => ?_⟩
    rw [← heq] at hk
    exact not_prefix_of_child c.path key hk
  rw [Card.outside, List.filter_cons_of_pos (by simpa using hnone), List.filter_eq_nil_iff.2]
  intro x hx
  rw [decide_eq_true_eq]
  exact fun h => h c List.mem_cons_self (hall x hx)

/-- Below any other holder the cards of its sites are sorted out site by site, since sites
stand apart. -/
theorem outside_of_ne (ho : K.reading.Orderly s) (hpath : c.path = K.path)
    {processor : String} (hne : c.processor ≠ processor) :
    Card.outside processor (c :: K.sites.flatMap (Site.cards s)) =
      c :: K.sites.flatMap fun τ => Card.outside processor (τ.cards s) := by
  have hnone := not_below (s := s) hpath processor
  rw [Card.outside, List.filter_cons_of_pos (by simpa using hnone), List.filter_flatMap]
  congr 1
  refine List.flatMap_congr fun τ hτ => ?_
  refine List.filter_congr fun x hx => ?_
  rw [decide_eq_decide]
  constructor
  · exact fun h m hm => h m (List.mem_cons_of_mem _ (List.mem_flatMap.2 ⟨τ, hτ, hm⟩))
  · intro h m hm hbelow
    rcases List.mem_cons.1 hm with rfl | hm
    · exact hne hbelow.1
    · -- a card above `x` is one of the same site
      obtain ⟨υ, hυ, hmυ⟩ := List.mem_flatMap.1 hm
      obtain ⟨front, back, hsites⟩ := List.append_of_mem hτ
      have hcase : υ = τ ∨ υ ∈ front ++ back := by
        rw [hsites] at hυ
        simpa [or_left_comm] using hυ
      rcases hcase with rfl | hbeside
      · exact h m hmυ hbelow
      · have hapart := K.apart_of_sites_eq ho hsites υ hbeside
        exact hapart.not_prefix_both (Site.prefix_of_mem_cards hx)
          ((Site.prefix_of_mem_cards hmυ).trans hbelow.2.1)

end Holder

/-! ## Schemes without mappers -/

namespace Scheme

/-- The scheme with the same catalog, in which no processor has a mapper of its own. -/
def plain (s : Scheme) : Scheme := { s with mappers := .empty }

/-- Mappers list the steps properties that the catalog declares, save for one processor
that is a leaf there. -/
structure DeclaredBut (s : Scheme) (leaf : String) : Prop where
  undeclared : s.catalog.stepsProperties leaf = []
  declared : ∀ name, name ≠ leaf → s.properties name = s.catalog.stepsProperties name

end Scheme

namespace Site

theorem below_plain (σ : Site) :
    σ.below s.plain =
      (Holder.mk σ.path (.declared (s.catalog.stepsProperties σ.processor)) σ.definition).sites :=
  below_eq (s := s.plain) σ

/-- Nothing is drawn below a leaf. -/
theorem below_plain_of_leaf (h : s.DeclaredBut leaf) {σ : Site} (hp : σ.processor = leaf) :
    σ.below s.plain = [] := by
  rw [below_plain, hp, h.undeclared, Holder.sites]
  split <;> rfl

/-- Below any other site the same sites are drawn. -/
theorem below_plain_of_ne (h : s.DeclaredBut leaf) {σ : Site}
    (hp : σ.processor ≠ leaf) : σ.below s.plain = σ.below s := by
  rw [below_plain, ← h.declared σ.processor hp, below_eq]
  rfl

/-- Without the mappers a site has the same cards, save for those below the leaf. -/
theorem cards_plain (hs : s.Orderly) (h : s.DeclaredBut leaf) (σ : Site) :
    σ.cards s.plain = Card.outside leaf (σ.cards s) := by
  induction σ using induction (s := s) with
  | step σ ih =>
      have hbelow := below_eq (s := s) σ
      have hcard : σ.card s.plain = σ.card s := rfl
      rw [cards_eq, cards_eq, hcard]
      by_cases hp : σ.processor = leaf
      · rw [below_plain_of_leaf h hp, hbelow, ← hp]
        exact (Holder.outside_of_processor (K := σ.holder s) (c := σ.card s) rfl).symm
      · rw [below_plain_of_ne h hp, hbelow,
          Holder.outside_of_ne (K := σ.holder s) (c := σ.card s) (σ.orderly_holder hs) rfl hp]
        congr 1
        exact List.flatMap_congr fun τ hτ => ih τ (hbelow ▸ hτ)

end Site

namespace Graph

/-- Without the mappers a document has the same cards, save for those below the leaf. -/
theorem cards_plain (hs : s.Orderly) (h : s.DeclaredBut leaf) {d : Document}
    (hroot : d.root = leaf → (d.holder s).sites = []) :
    (ofDocument s.plain d).nodes.map Node.card =
      Card.outside leaf ((ofDocument s d).nodes.map Node.card) := by
  have hsites : (d.holder s.plain).sites.flatMap (Site.cards s.plain) =
      (d.holder s).sites.flatMap fun τ => Card.outside leaf (τ.cards s) :=
    List.flatMap_congr fun τ _ => τ.cards_plain hs h
  rw [map_card_nodes, map_card_nodes, hsites]
  by_cases hp : d.root = leaf
  · have hleaf := Holder.outside_of_processor (s := s) (K := d.holder s)
      (c := .ofEntity s.catalog d.root d.kind d.definition?) rfl
    rw [hroot hp, List.flatMap_nil, List.flatMap_nil, ← hp]
    rw [hroot hp, List.flatMap_nil] at hleaf
    exact hleaf.symm
  · exact (Holder.outside_of_ne (K := d.holder s) (d.orderly_holder hs) rfl hp).symm

end Graph

/-! ## The built-in catalog -/

/-- The built-in mappers list what the catalog declares, but the catalog does not know of
the steps of a `recipientList`. -/
theorem Context.declaredBut_builtin : builtin.scheme.DeclaredBut "recipientList" := by
  have hknown : ∀ name ∈ known, name ≠ "recipientList" →
      builtin.scheme.properties name = builtin.scheme.catalog.stepsProperties name := by
    decide +kernel
  refine ⟨by decide +kernel, fun name hne => ?_⟩
  by_cases hk : name ∈ known
  · exact hknown name hk hne
  · rw [Scheme.properties, scheme, (properties_of_not_known hk).1]
    rfl

/-- Nothing is drawn below a root of a kind that is not known. -/
theorem Document.sites_holder_of_unknown {d : Document} (h : d.kind = .unknown) :
    (d.holder s).sites = [] := by
  have hreading : d.rootReading s = .declared [] := by
    simp [rootReading, rootProperties, h, EntityKind.hasRootSteps]
  rw [Holder.sites, holder, hreading]
  split <;> rfl

/-- The id of a node, and what it shows. -/
def Node.content (n : Node) : String × Card := (n.id, n.card)

namespace Graph

/-- What the nodes of a graph show, in order. -/
def contents (g : Graph) : List (String × Card) := g.nodes.map Node.content

/-- The contents of a document are told by its cards. -/
theorem contents_ofDocument (d : Document) :
    (ofDocument s d).contents =
      ((ofDocument s d).nodes.map Node.card).map fun c =>
        (d.entityId ++ "|" ++ c.path.text, c) := by
  rw [contents, List.map_map]
  refine List.map_congr_left fun n hn => ?_
  rw [Node.content, id_of_mem_nodes hn]
  rfl

/-- The nodes that are drawn below none of a processor. -/
def outside (processor : String) (g : Graph) : List Node :=
  g.nodes.filter fun n => ∀ m ∈ g.nodes, ¬ n.card.Below processor m.card

theorem map_card_outside (processor : String) (g : Graph) :
    (g.outside processor).map Node.card = Card.outside processor (g.nodes.map Node.card) := by
  rw [outside, Card.outside, List.filter_map]
  congr 1
  exact List.filter_congr fun n _ => by simp

/-- All nodes are left exactly when none is drawn below the processor. -/
theorem map_content_outside_iff (processor : String) (g : Graph) :
    (g.outside processor).map Node.content = g.contents ↔
      ∀ n ∈ g.nodes, ∀ m ∈ g.nodes, ¬ n.card.Below processor m.card := by
  rw [outside, contents]
  constructor
  · intro heq
    have hlength := congrArg List.length heq
    rw [List.length_map, List.length_map, List.length_filter_eq_length_iff] at hlength
    exact fun n hn => of_decide_eq_true (hlength n hn)
  · intro hall
    rw [List.filter_eq_self.2 fun n hn => decide_eq_true (hall n hn)]

/-- **Structure and content.** With the built-in catalog, a document drawn without mappers
has the nodes that it has with them, save for those below a `recipientList`: their ids and
all they show are the same, position by position.  So both draw the same nodes exactly when
none is drawn below a `recipientList`. -/
theorem contents_plain (d : Document) :
    let g := ofDocument Context.builtin.scheme d
    let plain := ofDocument Context.builtin.scheme.plain d
    plain.contents = (g.outside "recipientList").map Node.content ∧
    (plain.contents = g.contents ↔
      ∀ n ∈ g.nodes, ∀ m ∈ g.nodes, ¬ n.card.Below "recipientList" m.card) := by
  intro g plain
  have hroot : d.root = "recipientList" → (d.holder Context.builtin.scheme).sites = [] := by
    intro hr
    refine Document.sites_holder_of_unknown ?_
    rw [Document.kind, hr]
    decide
  have hcards : plain.nodes.map Node.card = (g.outside "recipientList").map Node.card := by
    rw [map_card_outside]
    exact cards_plain Context.orderly_builtin Context.declaredBut_builtin hroot
  have hcontents : plain.contents = (g.outside "recipientList").map Node.content := by
    rw [contents_ofDocument, hcards, List.map_map]
    refine List.map_congr_left fun n hn => ?_
    rw [Node.content, id_of_mem_nodes (List.mem_filter.1 hn).1]
    rfl
  exact ⟨hcontents, hcontents ▸ map_content_outside_iff "recipientList" g⟩

/-- A step inside a `recipientList` is drawn by its mapper only. -/
theorem not_contents_plain :
    ¬ ∀ d : Document,
      (ofDocument Context.builtin.scheme.plain d).contents =
        (ofDocument Context.builtin.scheme d).contents := by
  intro h
  let inner : Json := .arr [.obj [("log", .obj [])]]
  let steps : Json := .arr [.obj [("recipientList", .obj [("steps", inner)])]]
  have heq := h ⟨.obj [("route", .obj [("from", .obj [("steps", steps)])])], "route"⟩
  revert heq
  decide +kernel

end Graph

end FlowTree
