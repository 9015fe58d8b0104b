import FlowTree.Proofs.Graph.Symmetry

/-!
# FlowTree.Proofs.Graph.Succession

Where links lead.

A link leads to the next drawing of its row, so that all links of a graph can be read off
its drawing without positions: they are pairs of paths.  What rows of sites add to a list of
children has the links of the rows, and those of the rows below their sites.

* `Drawing.Linked` — a link in a row of drawings, or below it, by the paths at its ends;
* `Drawing.exists_linked_of_next`, `Drawing.exists_next_of_linked` — these are the links of
  the nodes;
* `Row.Leads` — a link between two sites of a row, or from a site to the first one that it
  hands over;
* `Row.linked_drawAll_iff` — the links of a drawing are those of the rows in it;
* `Drawing.chainWithin_positions` — links lead through a whole row when none is missing.
-/

namespace FlowTree

namespace Drawing

variable {p q : Path} {d : Drawing} {rest xs ys ds : List Drawing}

/-! ## Linked paths -/

/-- In a row, or somewhere below it, the drawing at the first path has a link, and the one
right behind it has the second path. -/
inductive Linked : List Drawing → Path → Path → Prop where
  | here {d e : Drawing} {rest : List Drawing} (h : d.next ≠ none) :
    Linked (d :: e :: rest) d.card.path e.card.path
  | under {d : Drawing} {rest : List Drawing} {p q : Path} (h : Linked d.children p q) :
    Linked (d :: rest) p q
  | behind {d : Drawing} {rest : List Drawing} {p q : Path} (h : Linked rest p q) :
    Linked (d :: rest) p q

/-- The path of the first drawing of a row. -/
def headPath? (ds : List Drawing) : Option Path := ds.head?.map fun d => d.card.path

theorem not_linked_nil : ¬ Linked [] p q := nofun

theorem linked_cons_iff :
    Linked (d :: rest) p q ↔
      (d.next ≠ none ∧ d.card.path = p ∧ headPath? rest = some q) ∨
        Linked d.children p q ∨ Linked rest p q := by
  constructor
  · intro h
    cases h with
    | here hn => exact .inl ⟨hn, rfl, rfl⟩
    | under hb => exact .inr (.inl hb)
    | behind hr => exact .inr (.inr hr)
  · rintro (⟨hn, rfl, hq⟩ | hb | hr)
    · cases rest with
      | nil => contradiction
      | cons e rest =>
        obtain rfl := Option.some.inj hq
        exact .here hn
    · exact .under hb
    · exact .behind hr

/-- A row in two parts has the links of its parts, when none leads out of the first. -/
theorem linked_append {before : Option Nat} (h : LinksForward before xs) :
    Linked (xs ++ ys) p q ↔ Linked xs p q ∨ Linked ys p q := by
  induction xs generalizing before with
  | nil => simp [not_linked_nil]
  | cons d rest ih =>
    rw [List.cons_append, linked_cons_iff, linked_cons_iff, ih h.2.2, or_assoc, or_assoc]
    cases rest with
    | nil =>
      -- nothing stands behind a drawing that ends the first part, so it has no link
      have hnone : d.next = none := h.2.2
      simp [hnone]
    | cons e rest => rfl

/-- Links back do not matter. -/
theorem linked_linkFirst : Linked (linkFirst ds) p q ↔ Linked ds p q := by
  cases ds with
  | nil => rfl
  | cons d rest =>
    obtain ⟨card, next, previous, lifts, children⟩ := d
    rw [linkFirst, linked_cons_iff, linked_cons_iff]
    rfl

theorem headPath?_linkFirst (ds : List Drawing) : headPath? (linkFirst ds) = headPath? ds := by
  cases ds with
  | nil => rfl
  | cons d rest =>
    cases d
    rfl

theorem headPath?_append (xs ys : List Drawing) :
    headPath? (xs ++ ys) = (headPath? xs).or (headPath? ys) := by
  cases xs <;> rfl

theorem headPath?_attachAll (ds : List Drawing) : headPath? (attachAll ds) = headPath? ds := by
  cases ds with
  | nil => rfl
  | cons d rest =>
    rw [attachAll_cons]
    rcases attach_cases d with ⟨-, lifts, ha⟩ | ⟨-, ha⟩ <;> rw [ha] <;> rfl

/-! ## Links of nodes -/

section Nodes

variable {entityId : String} {start : Nat} {parent before : Option Nat}

/-- The link of a node leads to one whose path is linked to its own. -/
theorem exists_linked_of_next {n : Node} {i j : Nat} (h : LinksForward before ds)
    (hds : ∀ d ∈ ds, Everywhere (LinksForward none) d)
    (hn : (n, i) ∈ placed entityId start parent ds) (hj : n.next = some j) :
    ∃ m, (m, j) ∈ placed entityId start parent ds ∧ Linked ds n.card.path m.card.path := by
  induction ds using forest_induction generalizing start parent before with
  | nil => contradiction
  | cons card next previous lifts children rest ihc ihr =>
    have hd := everywhere_iff.1 (hds _ List.mem_cons_self)
    have hrest := fun e he => hds e (List.mem_cons_of_mem _ he)
    rw [placed_cons] at hn ⊢
    rcases List.mem_cons.1 hn with htop | hn
    · obtain ⟨rfl, rfl⟩ := Prod.mk.inj htop
      obtain ⟨k, hk, rfl⟩ := Option.map_eq_some_iff.1 hj
      obtain rfl : k = sizeOfAll children + 1 := h.2.1 k hk
      have hr := h.2.2
      cases rest with
      | nil => exact absurd (hk.symm.trans hr) (by simp)
      | cons e rest =>
        obtain ⟨m, hm, hcard, _⟩ :=
          exists_placed_head entityId (i + (sizeOfAll children + 1)) parent e rest
        refine ⟨m, List.mem_cons_of_mem _ (List.mem_append_right _ hm), ?_⟩
        rw [hcard]
        exact .here (by simp [Drawing.next, hk])
    rcases List.mem_append.1 hn with hc | hr
    · obtain ⟨m, hm, hl⟩ := ihc hd.1 hd.2 hc
      exact ⟨m, List.mem_cons_of_mem _ (List.mem_append_left _ hm), .under hl⟩
    · obtain ⟨m, hm, hl⟩ := ihr h.2.2 hrest hr
      exact ⟨m, List.mem_cons_of_mem _ (List.mem_append_right _ hm), .behind hl⟩

/-- Linked paths are those of nodes with a link between them. -/
theorem exists_next_of_linked (h : LinksForward before ds)
    (hds : ∀ d ∈ ds, Everywhere (LinksForward none) d) (hl : Linked ds p q) :
    ∃ n i m j, (n, i) ∈ placed entityId start parent ds ∧
      (m, j) ∈ placed entityId start parent ds ∧ n.card.path = p ∧ m.card.path = q ∧
      n.next = some j := by
  induction hl generalizing start parent before with
  | @here d e rest hnext =>
    obtain ⟨k, hk⟩ := Option.ne_none_iff_exists'.1 hnext
    obtain rfl : k = d.size := h.2.1 k hk
    obtain ⟨n, hn, hncard, hnext, _⟩ := exists_placed_head entityId start parent d (e :: rest)
    obtain ⟨m, hm, hmcard, _⟩ := exists_placed_head entityId (start + d.size) parent e rest
    refine ⟨n, start, m, start + d.size, hn, ?_, by rw [hncard], by rw [hmcard],
      hnext.trans (by rw [hk]; rfl)⟩
    obtain ⟨card, next, previous, lifts, children⟩ := d
    rw [placed_cons]
    exact List.mem_cons_of_mem _ (List.mem_append_right _ hm)
  | @under d rest p q _ ih =>
    obtain ⟨card, next, previous, lifts, children⟩ := d
    have hd := everywhere_iff.1 (hds _ List.mem_cons_self)
    obtain ⟨n, i, m, j, hn, hm, hends⟩ := @ih (start + 1) (some start) none hd.1 hd.2
    rw [placed_cons]
    exact ⟨n, i, m, j, List.mem_cons_of_mem _ (List.mem_append_left _ hn),
      List.mem_cons_of_mem _ (List.mem_append_left _ hm), hends⟩
  | @behind d rest p q _ ih =>
    obtain ⟨card, next, previous, lifts, children⟩ := d
    obtain ⟨n, i, m, j, hn, hm, hends⟩ := @ih (start + (sizeOfAll children + 1)) parent next h.2.2
      fun e he => hds e (List.mem_cons_of_mem _ he)
    rw [placed_cons]
    exact ⟨n, i, m, j, List.mem_cons_of_mem _ (List.mem_append_right _ hn),
      List.mem_cons_of_mem _ (List.mem_append_right _ hm), hends⟩

end Nodes

/-! ## Links of attached drawings -/

/-- What attaching adds to the links of a row: the link of the drawing, to the first of the
children that it hands over or to what stands behind it, and the links below it. -/
theorem linked_attach_append (h : LinksForward none d.children) :
    Linked (attach d ++ rest) p q ↔
      (d.card.path = p ∧ (d.HandsOver ∧ headPath? d.children = some q ∨
        ¬ d.HandsOver ∧ d.next ≠ none ∧ headPath? rest = some q)) ∨
        Linked d.children p q ∨ Linked rest p q := by
  rcases attach_cases d with ⟨hkeeps, lifts, ha⟩ | ⟨hover, ha⟩ <;> rw [ha]
  · rw [List.singleton_append, linked_cons_iff]
    simp only [hkeeps, false_and, not_false_eq_true, true_and, false_or]
    rw [and_left_comm]
    rfl
  · obtain ⟨c, more, hc⟩ := List.exists_cons_of_ne_nil hover.2
    have hhead : headPath? (linkFirst d.children ++ rest) = headPath? d.children := by
      rw [headPath?_append, headPath?_linkFirst, hc]
      rfl
    rw [List.cons_append, linked_cons_iff, linked_append (linksForward_linkFirst h hover.2),
      linked_linkFirst, hhead]
    simp [hover, next, Drawing.children, not_linked_nil, Drawing.card]

end Drawing

open Drawing

/-! ## Links of rows -/

variable {s : Scheme} {p q : Path}

/-- The path of the first of some sites. -/
def Site.headPath? (sites : List Site) : Option Path := sites.head?.map Site.path

theorem Site.card_draw_path (σ : Site) : (σ.draw s).card.path = σ.path := by
  rw [draw_eq]
  rfl

namespace Row

/-- A row leads from one path to another: from a site that hands its own sites over to the
first of these and, if the row is linked, from every other site to the one behind it. -/
inductive Leads (s : Scheme) (row : Row) : Path → Path → Prop where
  | handed {σ τ : Site} {more : List Site} (h : σ ∈ row.sites) (hl : σ.lifts s = true)
      (hb : σ.below s = τ :: more) : Leads s row σ.path τ.path
  | chained {σ τ : Site} (h : [σ, τ] <:+: row.sites) (hl : row.links = true)
      (hk : ¬ (σ.lifts s = true ∧ σ.below s ≠ [])) : Leads s row σ.path τ.path

theorem leads_cons_iff {links : Bool} {σ : Site} {rest : List Site} :
    Leads s ⟨links, σ :: rest⟩ p q ↔
      (σ.path = p ∧ ((σ.lifts s = true ∧ σ.below s ≠ []) ∧
          Site.headPath? (σ.below s) = some q ∨
        ¬ (σ.lifts s = true ∧ σ.below s ≠ []) ∧ (links = true ∧ rest ≠ []) ∧
          Site.headPath? rest = some q)) ∨
        Leads s ⟨links, rest⟩ p q := by
  constructor
  · intro h
    cases h with
    | @handed σ' τ more hσ hl hb =>
      rcases List.mem_cons.1 hσ with rfl | hσ
      · exact .inl ⟨rfl, .inl ⟨⟨hl, by simp [hb]⟩, by rw [hb]; rfl⟩⟩
      · exact .inr (.handed hσ hl hb)
    | @chained σ' τ h hl hk =>
      rcases List.infix_cons_iff.1 h with hpre | hin
      · obtain ⟨rfl, more, rfl⟩ := List.cons_prefix_cons.1 hpre
        exact .inl ⟨rfl, .inr ⟨hk, ⟨hl, by simp⟩, rfl⟩⟩
      · exact .inr (.chained hin hl hk)
  · rintro (⟨rfl, ⟨⟨hl, hne⟩, hq⟩ | ⟨hk, ⟨hl, hne⟩, hq⟩⟩ | h)
    · obtain ⟨τ, more, hb⟩ := List.exists_cons_of_ne_nil hne
      rw [hb] at hq
      obtain rfl := Option.some.inj hq
      exact .handed List.mem_cons_self hl hb
    · obtain ⟨τ, more, rfl⟩ := List.exists_cons_of_ne_nil hne
      obtain rfl := Option.some.inj hq
      exact .chained ⟨[], more, rfl⟩ hl hk
    · cases h with
      | handed hσ hl hb => exact .handed (List.mem_cons_of_mem σ hσ) hl hb
      | chained h hl hk => exact .chained (List.infix_cons h) hl hk

/-- The drawings of sites in a row, the first of them linked to a node at a distance before
if the row is linked. -/
def drawBehind (s : Scheme) (links : Bool) (before : Option Nat) (sites : List Site) :
    List Drawing :=
  if links then chainBehind before (sites.map (Site.draw s)) else sites.map (Site.draw s)

theorem exists_drawBehind_cons (links : Bool) (before : Option Nat) (σ : Site)
    (rest : List Site) :
    ∃ next previous before', drawBehind s links before (σ :: rest) =
        (σ.draw s).withLinks next previous :: drawBehind s links before' rest ∧
      (next ≠ none ↔ links = true ∧ rest ≠ []) := by
  cases links with
  | true => exact ⟨_, before, _, rfl, by simp⟩
  | false =>
    have hself := withLinks_next_previous (σ.draw s)
    rw [σ.next_draw, σ.previous_draw] at hself
    exact ⟨none, none, before, by simp [drawBehind, hself], by simp⟩

theorem headPath?_drawBehind (links : Bool) (before : Option Nat) (sites : List Site) :
    Drawing.headPath? (drawBehind s links before sites) = Site.headPath? sites := by
  cases sites with
  | nil => cases links <;> rfl
  | cons σ rest =>
    obtain ⟨next, previous, before', h, -⟩ := exists_drawBehind_cons (s := s) links before σ rest
    rw [h]
    simp [Drawing.headPath?, Site.headPath?, σ.card_draw_path]

theorem headPath?_drawAll (rows : List Row) :
    Drawing.headPath? (drawAll s rows) = Site.headPath? (rows.flatMap sites) := by
  induction rows with
  | nil => rfl
  | cons row rest ih =>
    have hrow : Drawing.headPath? (attachAll (row.draw s)) = Site.headPath? row.sites :=
      (headPath?_attachAll _).trans (headPath?_drawBehind row.links none row.sites)
    rw [drawAll, List.flatMap_cons, List.flatMap_cons, headPath?_append, hrow, Site.headPath?,
      Site.headPath?, List.head?_append, Option.map_or]
    exact congrArg _ ih

/-- Links of a row lead between its sites, or lie below one of them. -/
theorem linked_drawBehind {links : Bool} {before : Option Nat} {sites : List Site} :
    Linked (attachAll (drawBehind s links before sites)) p q ↔
      Leads s ⟨links, sites⟩ p q ∨ ∃ σ ∈ sites, Linked (σ.draw s).children p q := by
  induction sites generalizing before with
  | nil =>
    have hnone : drawBehind s links before [] = [] := by cases links <;> rfl
    have hleads : ¬ Leads s ⟨links, []⟩ p q := by
      intro h
      cases h with
      | handed hσ => contradiction
      | chained h => exact absurd (List.eq_nil_of_infix_nil h) (by simp)
    simp [hnone, not_linked_nil, hleads]
  | cons σ rest ih =>
    obtain ⟨next, previous, before', h, hnext⟩ :=
      exists_drawBehind_cons (s := s) links before σ rest
    have hforward : LinksForward none ((σ.draw s).withLinks next previous).children := by
      rw [children_withLinks]
      exact (everywhere_iff.1 σ.everywhere_linksForward).1
    have hbelow : Drawing.headPath? (σ.draw s).children = Site.headPath? (σ.below s) := by
      rw [σ.children_draw, headPath?_drawAll]
      rfl
    have hbehind : Drawing.headPath? (attachAll (drawBehind s links before' rest)) =
        Site.headPath? rest := by
      rw [headPath?_attachAll, headPath?_drawBehind]
    rw [h, attachAll_cons, linked_attach_append hforward, σ.handsOver_withLinks_iff,
      children_withLinks, hbelow, hbehind, next_withLinks, hnext, ih, leads_cons_iff,
      card_withLinks, σ.card_draw_path]
    simp only [List.mem_cons, exists_eq_or_imp]
    rw [← or_assoc, or_or_or_comm]

theorem linksForward_attachAll_draw (row : Row) : LinksForward none (attachAll (row.draw s)) := by
  refine linksForward_attachAll row.links_draw.1 (fun d hd => ?_) (by simp)
  obtain ⟨front, σ, after, next, previous, -, rfl, -⟩ := exists_of_mem_draw hd
  rw [children_withLinks]
  exact (everywhere_iff.1 σ.everywhere_linksForward).1

theorem linked_drawAll {rows : List Row} :
    Linked (drawAll s rows) p q ↔ ∃ row ∈ rows, Linked (attachAll (row.draw s)) p q := by
  induction rows with
  | nil => simp [drawAll, not_linked_nil]
  | cons row rest ih =>
    have hcut : drawAll s (row :: rest) = attachAll (row.draw s) ++ drawAll s rest := rfl
    rw [hcut, linked_append row.linksForward_attachAll_draw, ih]
    simp only [List.mem_cons, exists_eq_or_imp]

/-- A link of what rows add to a list of children is one of a row that is drawn there. -/
theorem exists_leads_of_linked {rows : List Row} (h : Linked (drawAll s rows) p q) :
    ∃ row, DrawnIn s rows row ∧ row.Leads s p q := by
  have hstep {rows : List Row} (h : Linked (drawAll s rows) p q)
      (ih : ∀ row ∈ rows, ∀ σ ∈ row.sites, Linked (drawAll s (σ.rows s)) p q →
        ∃ row', DrawnIn s (σ.rows s) row' ∧ row'.Leads s p q) :
      ∃ row, DrawnIn s rows row ∧ row.Leads s p q := by
    obtain ⟨row, hrow, h⟩ := linked_drawAll.1 h
    rcases linked_drawBehind.1 h with hleads | ⟨σ, hσ, hbelow⟩
    · exact ⟨row, .top hrow, hleads⟩
    · rw [σ.children_draw] at hbelow
      obtain ⟨row', hrow', hleads⟩ := ih row hrow σ hσ hbelow
      exact ⟨row', hrow'.of_site hrow hσ, hleads⟩
  have hsite (σ : Site) (h : Linked (drawAll s (σ.rows s)) p q) :
      ∃ row, DrawnIn s (σ.rows s) row ∧ row.Leads s p q := by
    induction σ using Site.induction (s := s) with
    | step σ ih => exact hstep h fun row hrow τ hτ => ih τ (List.mem_flatMap.2 ⟨row, hrow, hτ⟩)
  exact hstep h fun _ _ σ _ => hsite σ

/-- The links of what rows add to a list of children are those of all rows drawn there. -/
theorem linked_drawAll_iff {rows : List Row} :
    Linked (drawAll s rows) p q ↔ ∃ row, DrawnIn s rows row ∧ row.Leads s p q := by
  refine ⟨exists_leads_of_linked, fun ⟨row, hrow, hleads⟩ => ?_⟩
  have hlinked : Linked (attachAll (row.draw s)) p q := linked_drawBehind.2 (.inl hleads)
  clear hleads
  induction hrow with
  | top hrow => exact linked_drawAll.2 ⟨_, hrow, hlinked⟩
  | @under row row' σ _ hσ hrow ih =>
    refine ih (linked_drawBehind.2 (.inr ⟨σ, hσ, ?_⟩))
    rw [σ.children_draw]
    exact linked_drawAll.2 ⟨row', hrow, hlinked⟩

end Row

/-! ## Links of documents -/

namespace Graph

variable {d : Document}

theorem linksForward_drawing (s : Scheme) (d : Document) :
    LinksForward none [d.drawing s] ∧
      ∀ e ∈ [d.drawing s], Everywhere (LinksForward none) e := by
  rw [Document.drawing_eq]
  exact Row.linksForward_node _ _ _

theorem linked_drawing_iff :
    Linked [d.drawing s] p q ↔ ∃ row, Row.DrawnIn s (d.rootRows s) row ∧ row.Leads s p q := by
  rw [← Row.linked_drawAll_iff, Document.drawing_eq, linked_cons_iff]
  simp [Drawing.next, Drawing.children, not_linked_nil]

/-- The link of a node is one of a row that is drawn in the document. -/
theorem exists_leads_of_next {n : Node} {i j : Nat} (hn : (ofDocument s d).get? i = some n)
    (hj : n.next = some j) :
    ∃ m row, (ofDocument s d).get? j = some m ∧ Row.DrawnIn s (d.rootRows s) row ∧
      row.Leads s n.card.path m.card.path := by
  obtain ⟨hforward, hbelow⟩ := linksForward_drawing s d
  obtain ⟨m, hm, hlinked⟩ := exists_linked_of_next hforward hbelow (mem_placed_drawing_iff.2 hn) hj
  obtain ⟨row, hrow, hleads⟩ := linked_drawing_iff.1 hlinked
  exact ⟨m, row, mem_placed_drawing_iff.1 hm, hrow, hleads⟩

/-- Each link of a row that is drawn in the document is that of a node. -/
theorem exists_next_of_leads {row : Row} (hrow : Row.DrawnIn s (d.rootRows s) row)
    (h : row.Leads s p q) :
    ∃ n i m j, (ofDocument s d).get? i = some n ∧ (ofDocument s d).get? j = some m ∧
      n.card.path = p ∧ m.card.path = q ∧ n.next = some j := by
  obtain ⟨hforward, hbelow⟩ := linksForward_drawing s d
  obtain ⟨n, i, m, j, hn, hm, hends⟩ :=
    exists_next_of_linked hforward hbelow (linked_drawing_iff.2 ⟨row, hrow, h⟩)
  exact ⟨n, i, m, j, mem_placed_drawing_iff.1 hn, mem_placed_drawing_iff.1 hm, hends⟩

end Graph

/-! ## Chains -/

namespace Drawing

variable {ds : List Drawing}

/-- Every drawing of a row but the last has a link. -/
def Chained : List Drawing → Prop
  | [] => True
  | d :: rest => (rest ≠ [] → d.next ≠ none) ∧ Chained rest

theorem chained_chainBehind (before : Option Nat) (ds : List Drawing) :
    Chained (chainBehind before ds) := by
  induction ds generalizing before with
  | nil => trivial
  | cons d rest ih =>
    refine ⟨fun hne => ?_, ih (some d.size)⟩
    have hrest : rest.isEmpty = false := by
      cases rest with
      | nil => contradiction
      | cons => rfl
    simp [hrest]

theorem chained_linkFirst (h : Chained ds) : Chained (linkFirst ds) := by
  cases ds with
  | nil => exact h
  | cons d rest =>
    cases d
    exact h

/-- Attaching keeps links when no drawing hands children over. -/
theorem chained_attachAll (h : Chained ds) (hk : ∀ d ∈ ds, ¬ d.HandsOver) :
    Chained (attachAll ds) := by
  induction ds with
  | nil => trivial
  | cons d rest ih =>
    have hrest := ih h.2 fun e he => hk e (List.mem_cons_of_mem d he)
    rw [attachAll_cons]
    rcases attach_cases d with ⟨-, lifts, ha⟩ | ⟨hover, -⟩
    · rw [ha]
      refine ⟨fun hne => h.1 ?_, hrest⟩
      rintro rfl
      exact hne rfl
    · exact absurd hover (hk d List.mem_cons_self)

/-- In a linked row that hands nothing over only the last site has no link. -/
theorem chained_attachAll_draw {row : Row} (hl : row.links = true)
    (hk : ∀ σ ∈ row.sites, ¬ (σ.lifts s = true ∧ σ.below s ≠ [])) :
    Chained (attachAll (row.draw s)) := by
  refine chained_attachAll ?_ fun d hd => ?_
  · rw [Row.draw, if_pos hl]
    exact chained_chainBehind none _
  · obtain ⟨front, σ, after, next, previous, hs, rfl, -⟩ := Row.exists_of_mem_draw hd
    rw [σ.handsOver_withLinks_iff]
    exact hk σ (by simp [hs])

theorem length_le_sizeOfAll (ds : List Drawing) : ds.length ≤ sizeOfAll ds := by
  induction ds with
  | nil => exact Nat.le_refl 0
  | cons d rest ih =>
    have hpos := size_pos d
    rw [List.length_cons, sizeOfAll_cons]
    omega

/-- From the first node of a row links lead through the row, when none is missing. -/
theorem chainWithin_positions {g : Graph} {entityId : String} {start bound : Nat}
    {parent before : Option Nat} {d : Drawing} {rest : List Drawing}
    (hg : ∀ n i, (n, i) ∈ placed entityId start parent (d :: rest) → g.get? i = some n)
    (hf : LinksForward before (d :: rest)) (hc : Chained (d :: rest))
    (hb : (d :: rest).length ≤ bound) :
    g.chainWithin bound start = positions start (d :: rest) := by
  induction rest generalizing d start bound before with
  | nil =>
    obtain ⟨n, hn, -, hnext, -⟩ := exists_placed_head entityId start parent d []
    have hnone : d.next = none := hf.2.2
    obtain ⟨bound, rfl⟩ := Nat.exists_eq_add_one_of_ne_zero (by simp at hb; omega : bound ≠ 0)
    rw [Graph.chainWithin, hg n start hn, Option.bind_some, hnext, hnone]
    rfl
  | cons e rest ih =>
    obtain ⟨n, hn, -, hnext, -⟩ := exists_placed_head entityId start parent d (e :: rest)
    obtain ⟨k, hk⟩ := Option.ne_none_iff_exists'.1 (hc.1 (by simp))
    obtain rfl : k = d.size := hf.2.1 k hk
    obtain ⟨bound, rfl⟩ := Nat.exists_eq_add_one_of_ne_zero (by simp at hb; omega : bound ≠ 0)
    have hbehind :
        g.chainWithin bound (start + d.size) = positions (start + d.size) (e :: rest) := by
      refine ih (fun m i hm => hg m i ?_) hf.2.2 hc.2 (by simpa using hb)
      obtain ⟨card, next, previous, lifts, children⟩ := d
      rw [placed_cons]
      exact List.mem_cons_of_mem _ (List.mem_append_right _ hm)
    rw [Graph.chainWithin, hg n start hn, Option.bind_some, hnext, hk]
    exact congrArg (start :: ·) hbehind

end Drawing

namespace Graph

/-- The chain from the first child of the root is all children of the root, when none of
their links is missing. -/
theorem chain_one_eq {d : Document} (hne : Row.drawAll s (d.rootRows s) ≠ [])
    (hc : Chained (Row.drawAll s (d.rootRows s))) :
    ∃ root, (ofDocument s d).get? 0 = some root ∧ (ofDocument s d).chain 1 = root.children := by
  let g := ofDocument s d
  have hplaced {n : Node} {i : Nat} (h : (n, i) ∈ placed d.entityId 0 none [d.drawing s]) :
      g.get? i = some n := mem_placed_drawing_iff.1 h
  have hsize : g.size = sizeOfAll (Row.drawAll s (d.rootRows s)) + 1 := by
    simp only [g, ofDocument_eq, size_toGraph, Document.drawing_eq, size_node]
  rw [Document.drawing_eq, placed_cons, placed_nil, List.append_nil] at hplaced
  refine ⟨_, hplaced List.mem_cons_self, ?_⟩
  obtain ⟨e, rest, hrow⟩ := List.exists_cons_of_ne_nil hne
  have hforward := (@Row.linksForward_drawAll s (d.rootRows s)
    fun _ _ τ _ => τ.everywhere_linksForward).1
  have hlength := length_le_sizeOfAll (Row.drawAll s (d.rootRows s))
  rw [hrow] at hc hforward hlength hplaced hsize ⊢
  refine chainWithin_positions (fun n i hn => hplaced (List.mem_cons_of_mem _ hn)) hforward hc ?_
  rw [hsize]
  omega

end Graph

end FlowTree
