import FlowTree.Editor
import FlowTree.Proofs.Graph.Links
import FlowTree.Proofs.Graph.Refinement

/-!
# FlowTree.Proofs.Graph.Symmetry

Links of graphs, in both directions.

The node that a link leads to always links back.  The other direction fails where a row
is cut: a site that hands its own sites over to a linked row stands before the end of the
row.  It is linked to the first site handed over, and the site that was behind it in the
row still links back to it.

* `Row.Cut`, `Row.DrawnIn` — rows that are cut, and the rows of a drawing;
* `links_symmetric_iff` — links lead forth and back alike exactly when no drawn row is
  cut.
-/

namespace FlowTree

open Drawing

namespace Row

/-- A linked row is cut at a site that has another one behind it, and that hands sites of
its own over to the row. -/
def Cut (s : Scheme) (row : Row) : Prop :=
  row.links = true ∧ ∃ front σ after, row.sites = front ++ σ :: after ∧ after ≠ [] ∧
    σ.lifts s = true ∧ σ.below s ≠ []

/-- The given rows, and all rows below the sites in them. -/
inductive DrawnIn (s : Scheme) (rows : List Row) : Row → Prop where
  | top {row : Row} (h : row ∈ rows) : DrawnIn s rows row
  | under {row row' : Row} {σ : Site} (h : DrawnIn s rows row) (hσ : σ ∈ row.sites)
      (hrow : row' ∈ σ.rows s) : DrawnIn s rows row'

end Row

variable {s : Scheme}

/-! ## The drawing of a site -/

namespace Site

theorem children_draw (σ : Site) : (σ.draw s).children = Row.drawAll s (σ.rows s) := by
  rw [draw_eq]
  rfl

theorem lifts_draw (σ : Site) : (σ.draw s).lifts = σ.lifts s := by
  rw [draw_eq]
  rfl

theorem next_draw (σ : Site) : (σ.draw s).next = none := by
  rw [draw_eq]
  rfl

theorem previous_draw (σ : Site) : (σ.draw s).previous = none := by
  rw [draw_eq]
  rfl

theorem children_draw_eq_nil_iff (σ : Site) : (σ.draw s).children = [] ↔ σ.below s = [] := by
  have hattach (d : Drawing) : attach d ≠ [] := by
    obtain ⟨e, more, h, -⟩ := exists_attach_eq_cons d
    simp [h]
  have hchain (before : Option Nat) (ds : List Drawing) : chainBehind before ds = [] ↔ ds = [] := by
    cases ds <;> simp [chainBehind]
  have hrow (row : Row) : attachAll (row.draw s) = [] ↔ row.sites = [] := by
    unfold Row.draw
    split <;> simp [attachAll, chain, hattach, ← List.eq_nil_iff_forall_not_mem, hchain]
  rw [children_draw]
  simp only [Row.drawAll, below, List.flatMap_eq_nil_iff, hrow]

theorem handsOver_draw_iff (σ : Site) :
    (σ.draw s).HandsOver ↔ σ.lifts s = true ∧ σ.below s ≠ [] := by
  rw [HandsOver, lifts_draw, ne_eq, children_draw_eq_nil_iff]

end Site

/-! ## The drawings of a row -/

/-- A drawing of a chain is one of those chained with other links, and leads on only when
there is one behind it. -/
theorem Drawing.exists_of_mem_chainBehind {before : Option Nat} {ds : List Drawing} {d : Drawing}
    (h : d ∈ chainBehind before ds) :
    ∃ front e after next previous, ds = front ++ e :: after ∧ d = e.withLinks next previous ∧
      (after = [] → next = none) := by
  induction ds generalizing before with
  | nil => contradiction
  | cons e rest ih =>
      rcases List.mem_cons.1 h with rfl | hr
      · exact ⟨[], e, rest, _, before, rfl, rfl, fun hn => by simp [hn]⟩
      · obtain ⟨front, e', after, next, previous, rfl, he⟩ := ih hr
        exact ⟨e :: front, e', after, next, previous, rfl, he⟩

theorem Drawing.linksForward_of_unlinked {ds : List Drawing}
    (h : ∀ d ∈ ds, d.next = none ∧ d.previous = none) :
    LinksForward none ds ∧ LinksBack none ds := by
  induction ds with
  | nil => exact ⟨rfl, trivial⟩
  | cons d rest ih =>
      obtain ⟨hn, hp⟩ := h d List.mem_cons_self
      obtain ⟨hf, hb⟩ := ih fun e he => h e (List.mem_cons_of_mem d he)
      constructor
      · exact ⟨by simp, by simp [hn], by rwa [hn]⟩
      · exact ⟨by simp [hp], by rwa [hn]⟩

theorem Site.handsOver_withLinks_iff (σ : Site) (next previous : Option Nat) :
    ((σ.draw s).withLinks next previous).HandsOver ↔ σ.lifts s = true ∧ σ.below s ≠ [] := by
  rw [HandsOver, lifts_withLinks, children_withLinks]
  exact σ.handsOver_draw_iff

namespace Row

/-- Before anything is handed over, links lead forth and back alike. -/
theorem links_draw (row : Row) : LinksForward none (row.draw s) ∧ LinksBack none (row.draw s) := by
  unfold draw
  split
  · exact ⟨linksForward_chainBehind (by simp) (by simp), linksBack_chainBehind⟩
  · refine linksForward_of_unlinked fun d hd => ?_
    obtain ⟨σ, -, rfl⟩ := List.mem_map.1 hd
    exact ⟨σ.next_draw, σ.previous_draw⟩

/-- A drawing of a row is that of one of its sites; it leads on only in a linked row, and
only when there is a site behind it. -/
theorem exists_of_mem_draw {row : Row} {d : Drawing} (h : d ∈ row.draw s) :
    ∃ front σ after next previous, row.sites = front ++ σ :: after ∧
      d = (σ.draw s).withLinks next previous ∧
      (next ≠ none → row.links = true ∧ after ≠ []) := by
  unfold draw at h
  split at h
  · rename_i hl
    obtain ⟨xs, e, ys, next, previous, hs, rfl, hn⟩ := exists_of_mem_chainBehind h
    obtain ⟨front, rest, hsites, -, hr⟩ := List.map_eq_append_iff.1 hs
    obtain ⟨σ, after, rfl, rfl, rfl⟩ := List.map_eq_cons_iff.1 hr
    refine ⟨front, σ, after, next, previous, hsites, rfl, fun hne => ⟨hl, fun ha => hne (hn ?_)⟩⟩
    rw [ha, List.map_nil]
  · obtain ⟨σ, hσ, rfl⟩ := List.mem_map.1 h
    obtain ⟨front, after, hsites⟩ := List.append_of_mem hσ
    have hself := withLinks_next_previous (σ.draw s)
    rw [σ.next_draw, σ.previous_draw] at hself
    exact ⟨front, σ, after, none, none, hsites, hself.symm, by simp⟩

/-- The drawing of each site stands in the drawings of its row. -/
theorem exists_draw_eq_append {row : Row} {σ : Site} (h : σ ∈ row.sites) :
    ∃ front next previous after,
      row.draw s = front ++ (σ.draw s).withLinks next previous :: after := by
  obtain ⟨xs, ys, hs⟩ := List.append_of_mem h
  unfold draw
  split
  · rw [hs, List.map_append, List.map_cons, chain]
    obtain ⟨front, prev, hc⟩ :=
      exists_chainBehind_append none (xs.map (Site.draw s)) (σ.draw s :: ys.map (Site.draw s))
    exact ⟨front, _, prev, _, hc⟩
  · rw [hs, List.map_append, List.map_cons]
    exact ⟨_, _, _, _, by rw [withLinks_next_previous]⟩

/-- Where no site draws a row with a fault, what rows add to a list of children draws
none. -/
theorem everywhere_drawAll {P : List Drawing → Prop} (hnil : P []) {rows : List Row}
    (h : ∀ row ∈ rows, ∀ τ ∈ row.sites, Everywhere P (τ.draw s)) :
    ∀ e ∈ drawAll s rows, Everywhere P e := by
  intro e he
  obtain ⟨row, hrow, he⟩ := List.mem_flatMap.1 he
  obtain ⟨d, hd, he⟩ := List.mem_flatMap.1 he
  obtain ⟨front, σ, after, next, previous, hs, rfl, -⟩ := exists_of_mem_draw hd
  have hσ : Everywhere P (σ.draw s) := h row hrow σ (by rw [hs]; simp)
  obtain ⟨hP, hbelow⟩ := everywhere_iff.1 hσ
  rcases attach_cases ((σ.draw s).withLinks next previous) with ⟨-, lifts, ha⟩ | ⟨-, ha⟩ <;>
    rw [ha] at he
  · obtain rfl := List.mem_singleton.1 he
    rw [children_withLinks]
    exact everywhere_iff.2 ⟨hP, hbelow⟩
  · rcases List.mem_cons.1 he with rfl | he
    · exact everywhere_iff.2 ⟨hnil, by simp [Drawing.children]⟩
    · rw [children_withLinks] at he
      exact everywhere_linkFirst.2 hbelow e he

/-- Links of what rows add to a list of children lead forward, and so do links below. -/
theorem linksForward_drawAll {rows : List Row}
    (h : ∀ row ∈ rows, ∀ τ ∈ row.sites, Everywhere (LinksForward none) (τ.draw s)) :
    LinksForward none (drawAll s rows) ∧
      ∀ e ∈ drawAll s rows, Everywhere (LinksForward none) e := by
  have hnil : LinksForward none [] := rfl
  refine ⟨?_, everywhere_drawAll hnil h⟩
  clear hnil
  induction rows with
  | nil => rfl
  | cons row rest ih =>
      refine linksForward_append ?_ (ih fun r hr => h r (List.mem_cons_of_mem row hr))
      refine linksForward_attachAll row.links_draw.1 (fun d hd => ?_) (by simp)
      obtain ⟨front, σ, after, next, previous, hs, rfl, -⟩ := exists_of_mem_draw hd
      rw [children_withLinks]
      exact (everywhere_iff.1 (h row List.mem_cons_self σ (by rw [hs]; simp))).1

/-- What rows add to a list of children is linked forth and back alike, when none of the
rows is cut and the same holds below. -/
theorem links_drawAll {rows : List Row}
    (h : ∀ row ∈ rows, ∀ τ ∈ row.sites, Everywhere LinksBoth (τ.draw s))
    (hcut : ∀ row ∈ rows, ¬ row.Cut s) :
    LinksBoth (drawAll s rows) ∧ ∀ e ∈ drawAll s rows, Everywhere LinksBoth e := by
  have hnil : LinksBoth [] := ⟨rfl, trivial⟩
  refine ⟨?_, everywhere_drawAll hnil h⟩
  induction rows with
  | nil => exact hnil
  | cons row rest ih =>
      have hmem : ∀ d ∈ row.draw s, LinksBoth d.children := by
        intro d hd
        obtain ⟨front, σ, after, next, previous, hs, rfl, -⟩ := exists_of_mem_draw hd
        rw [children_withLinks]
        exact (everywhere_iff.1 (h row List.mem_cons_self σ (by rw [hs]; simp))).1
      have hforward : LinksForward none (attachAll (row.draw s)) :=
        linksForward_attachAll row.links_draw.1 (fun d hd => (hmem d hd).1) (by simp)
      have hrest : LinksBoth (drawAll s rest) :=
        ih (fun r hr => h r (List.mem_cons_of_mem row hr))
          fun r hr => hcut r (List.mem_cons_of_mem row hr)
      refine ⟨linksForward_append hforward hrest.1, linksBack_append hforward ?_ hrest.2⟩
      refine linksBack_attachAll row.links_draw.2 hmem fun d hd ho => ?_
      obtain ⟨front, σ, after, next, previous, hs, rfl, hnext⟩ := exists_of_mem_draw hd
      have hσ := (σ.handsOver_withLinks_iff next previous).1 ho
      rw [next_withLinks]
      refine Decidable.byContradiction fun hne => ?_
      obtain ⟨hl, ha⟩ := hnext hne
      exact hcut row List.mem_cons_self ⟨hl, front, σ, after, hs, ha, hσ⟩

/-- A cut row breaks what it adds to a list of children. -/
theorem Cut.broken {row : Row} (h : row.Cut s) : Broken (attachAll (row.draw s)) := by
  obtain ⟨hl, front, σ, after, hs, hne, hσ⟩ := h
  obtain ⟨τ, after, rfl⟩ := List.exists_cons_of_ne_nil hne
  have hdraw : row.draw s = chainBehind none (front.map (Site.draw s) ++
      σ.draw s :: τ.draw s :: after.map (Site.draw s)) := by
    rw [draw, if_pos hl, hs, List.map_append, List.map_cons, List.map_cons, chain]
  obtain ⟨ds, prev, hc⟩ := exists_chainBehind_append none (front.map (Site.draw s))
    (σ.draw s :: τ.draw s :: after.map (Site.draw s))
  rw [hdraw, hc, attachAll_append]
  have hb := broken_attachAll (σ.handsOver_draw_iff.2 hσ) prev (τ.draw s)
    (after.map (Site.draw s))
  simpa using hb.append (attachAll ds) []

/-- In an intact list of children every row drawn there is intact. -/
theorem DrawnIn.intact {rows : List Row} {row : Row} (h : DrawnIn s rows row)
    (hrows : Intact (drawAll s rows)) : Intact (attachAll (row.draw s)) := by
  have hin {rows : List Row} {row : Row} (hrow : row ∈ rows) (hi : Intact (drawAll s rows)) :
      Intact (attachAll (row.draw s)) := by
    obtain ⟨front, after, rfl⟩ := List.append_of_mem hrow
    rw [drawAll, List.flatMap_append, List.flatMap_cons] at hi
    exact hi.of_append
  induction h with
  | top hrow => exact hin hrow hrows
  | @under row row' σ _ hσ hrow ih =>
      -- the rows of the site stand below its node, or beside it when it hands them over
      have hchildren : Intact (σ.draw s).children := by
        obtain ⟨front, next, previous, after, hd⟩ := exists_draw_eq_append hσ (s := s)
        rw [hd, attachAll_append, attachAll_cons] at ih
        have hself := ih.of_append
        rcases attach_cases ((σ.draw s).withLinks next previous) with ⟨-, lifts, ha⟩ | ⟨-, ha⟩ <;>
          rw [ha, children_withLinks] at hself
        · exact everywhere_iff.1 (hself.2 _ List.mem_cons_self)
        · rw [← List.singleton_append, ← List.append_nil (linkFirst _)] at hself
          exact hself.of_append.of_linkFirst
      rw [Site.children_draw] at hchildren
      exact hin hrow hchildren

/-- A row that is drawn below a site of a row is drawn below the row. -/
theorem DrawnIn.of_site {rows : List Row} {row row' : Row} {τ : Site} (hrow : row ∈ rows)
    (hτ : τ ∈ row.sites) (h : DrawnIn s (τ.rows s) row') : DrawnIn s rows row' := by
  induction h with
  | top hr => exact .under (.top hrow) hτ hr
  | under _ hσ hr ih => exact .under ih hσ hr

end Row

/-! ## Sites -/

namespace Site

/-- Links below every site lead forward. -/
theorem everywhere_linksForward (σ : Site) : Everywhere (LinksForward none) (σ.draw s) := by
  induction σ using induction (s := s) with
  | step σ ih =>
      rw [everywhere_iff, children_draw]
      exact Row.linksForward_drawAll fun row hrow τ hτ =>
        ih τ (List.mem_flatMap.2 ⟨row, hrow, hτ⟩)

/-- Links below a site lead forth and back alike, when no row drawn there is cut. -/
theorem everywhere_links (σ : Site) (h : ∀ row, Row.DrawnIn s (σ.rows s) row → ¬ row.Cut s) :
    Everywhere LinksBoth (σ.draw s) := by
  induction σ using induction (s := s) with
  | step σ ih =>
      rw [everywhere_iff, children_draw]
      refine Row.links_drawAll (fun row hrow τ hτ => ?_) fun row hrow => h row (.top hrow)
      exact ih τ (List.mem_flatMap.2 ⟨row, hrow, hτ⟩) fun row' hd => h row' (hd.of_site hrow hτ)

end Site

/-- Links of what rows add below a node lead forward. -/
theorem Row.linksForward_node (card : Card) (lifts : Bool) (rows : List Row) :
    let d := Drawing.node card none none lifts (Row.drawAll s rows)
    LinksForward none [d] ∧ ∀ e ∈ [d], Everywhere (LinksForward none) e := by
  intro d
  refine ⟨⟨by simp, by simp [d, Drawing.next], rfl⟩, fun e he => ?_⟩
  rw [List.mem_singleton.1 he, everywhere_iff]
  exact Row.linksForward_drawAll fun _ _ τ _ => τ.everywhere_linksForward

/-! ## Graphs -/

namespace Graph

/-- The node at one position is linked to the one at another. -/
def Leads (g : Graph) (i j : Nat) : Prop := (g.get? i).bind Node.next = some j

/-- The node at one position is linked back to from the one at another. -/
def Trails (g : Graph) (i j : Nat) : Prop := (g.get? j).bind Node.previous = some i

/-- Links lead forth and back alike. -/
def LinksSymmetric (g : Graph) : Prop := ∀ i j, g.Leads i j ↔ g.Trails i j

theorem leads_iff {g : Graph} {i j : Nat} :
    g.Leads i j ↔ ∃ n, g.get? i = some n ∧ n.next = some j := Option.bind_eq_some_iff

theorem trails_iff {g : Graph} {i j : Nat} :
    g.Trails i j ↔ ∃ m, g.get? j = some m ∧ m.previous = some i := Option.bind_eq_some_iff

/-- In a graph drawn of rows every link is answered, and every link back answers one
exactly when no drawn row is cut. -/
theorem links_toGraph (entityId : String) (kind : EntityKind) (card : Card) (lifts : Bool)
    (rows : List Row) :
    let g := (Drawing.node card none none lifts (Row.drawAll s rows)).toGraph entityId kind
    (∀ i j, g.Leads i j → g.Trails i j) ∧
      (g.LinksSymmetric ↔ ∀ row, Row.DrawnIn s rows row → ¬ row.Cut s) := by
  intro g
  let d := Drawing.node card none none lifts (Row.drawAll s rows)
  have hplaced : ∀ {n i}, (n, i) ∈ placed entityId 0 none [d] ↔ g.get? i = some n :=
    mem_placed_iff
  obtain ⟨htop, hforward⟩ := Row.linksForward_node (s := s) card lifts rows
  have hleads : ∀ i j, g.Leads i j → g.Trails i j := by
    intro i j h
    obtain ⟨n, hn, hj⟩ := leads_iff.1 h
    obtain ⟨m, hm, hi⟩ := exists_previous_of_next htop hforward (hplaced.2 hn) hj
    exact trails_iff.2 ⟨m, hplaced.1 hm, hi⟩
  refine ⟨hleads, fun hsym row hrow => ?_, fun hcut i j => ⟨hleads i j, fun h => ?_⟩⟩
  · -- in a symmetric graph nothing is broken, and a cut row would be
    have hintact : Intact [d] := by
      refine @intact_of_placed entityId 0 none [d] fun n m i j hn hm hi => ?_
      obtain ⟨n', hn', hj⟩ := leads_iff.1 ((hsym i j).2 (trails_iff.2 ⟨m, hplaced.1 hm, hi⟩))
      rw [hplaced.1 hn] at hn'
      rw [Option.some.inj hn']
      exact hj
    have hrows : Intact (Row.drawAll s rows) :=
      everywhere_iff.1 (hintact.2 d List.mem_cons_self)
    exact fun hc => (hrow.intact hrows).1 hc.broken
  · obtain ⟨m, hm, hi⟩ := trails_iff.1 h
    have hrows := @Row.links_drawAll s rows (fun row hrow τ hτ =>
      τ.everywhere_links fun row' hd => hcut row' (hd.of_site hrow hτ))
      fun row hrow => hcut row (.top hrow)
    have hback : LinksBack none [d] := ⟨by simp [d, Drawing.previous], trivial⟩
    have hd : ∀ e ∈ [d], Everywhere LinksBoth e := fun e he => by
      rw [List.mem_singleton.1 he, everywhere_iff]
      exact hrows
    rcases exists_next_of_previous htop hback hd (hplaced.2 hm) hi with
      ⟨n, hn, hj⟩ | ⟨-, k, hk, -⟩
    · exact leads_iff.2 ⟨n, hplaced.1 hn, hj⟩
    · contradiction

/-- **Links.** In the graph of a document, and of every part of one, the node that a link
leads to links back.  Every link back answers a link exactly when no drawn row is cut. -/
theorem links_symmetric_iff (s : Scheme) (d : Document) :
    ((∀ i j, (ofDocument s d).Leads i j → (ofDocument s d).Trails i j) ∧
      ((ofDocument s d).LinksSymmetric ↔
        ∀ row, Row.DrawnIn s (d.rootRows s) row → ¬ row.Cut s)) ∧
    ∀ path g, ofPart? s d path = some g → d.isRootPath path = false →
      ∃ σ : Site, d.processorAt? path = some (σ.path, σ.processor) ∧
        d.resolve σ.path = some σ.definition ∧ (∀ i j, g.Leads i j → g.Trails i j) ∧
        (g.LinksSymmetric ↔ ∀ row, Row.DrawnIn s (σ.rows s) row → ¬ row.Cut s) := by
  constructor
  · rw [ofDocument_eq, Document.drawing_eq]
    exact links_toGraph _ _ _ _ _
  · intro path g hg hroot
    rcases ofPart?_cases hg with ⟨hr, -⟩ | ⟨σ, hp, hd, rfl⟩
    · rw [hr] at hroot
      contradiction
    · refine ⟨σ, hp, hd, ?_⟩
      rw [Site.draw_eq]
      exact links_toGraph _ _ _ _ _

/-- The part of a route from its entry on: the links of its graph are answered. -/
theorem links_symmetric_iff_entry :
    let log : Json := .obj [("log", .obj [("message", .str "a")])]
    let entry : Json := .obj [("uri", .str "timer:t"), ("steps", .arr [log, log])]
    let d : Document := ⟨.obj [("route", .obj [("from", entry)])], "route"⟩
    ∃ g, ofPart? Context.builtin.scheme d (d.rootPath.child "from") = some g ∧
      g.Leads 1 2 ∧ g.Trails 1 2 := by
  intro log entry d
  obtain ⟨g, hg⟩ : ∃ g, ofPart? Context.builtin.scheme d (d.rootPath.child "from") = some g :=
    Option.isSome_iff_exists.1 (by decide +kernel)
  obtain ⟨-, -, -, htrails, -⟩ :=
    (links_symmetric_iff Context.builtin.scheme d).2 _ g hg (by decide +kernel)
  have hleads : ((ofPart? Context.builtin.scheme d (d.rootPath.child "from")).bind fun g =>
      (g.get? 1).bind Node.next) = some 2 := by decide +kernel
  rw [hg] at hleads
  exact ⟨g, hg, hleads, htrails 1 2 hleads⟩

/-- A step behind a `from` within a branch links back to it, while the link of the `from`
leads to the first of its own steps. -/
theorem not_links_symmetric :
    ¬ ∀ d : Document, (ofDocument Context.builtin.scheme d).LinksSymmetric := by
  intro h
  let step : Json := .obj [("from", .obj [("steps", .arr [.obj [("log", .obj [])]])])]
  let d : Document :=
    ⟨.obj [("intercept", .obj [("steps", .arr [step, .obj [("stop", .obj [])]])])], "intercept"⟩
  have hback : (ofDocument Context.builtin.scheme d).Trails 1 3 := by
    unfold Trails
    decide +kernel
  have hforth : ¬ (ofDocument Context.builtin.scheme d).Leads 1 3 := by
    unfold Leads
    decide +kernel
  exact hforth ((h d 1 3).2 hback)

end Graph

end FlowTree
