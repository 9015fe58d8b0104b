import FlowTree.Proofs.Graph.Part
import Mathlib.Data.List.Chain

/-!
# FlowTree.Proofs.Graph.Advance

Links lead to nodes that were created later.

A link back is written as a distance, and no distance is zero or reaches out of the row;
so it names an earlier node.  Links forward are answered by links back, and so each leads
to a later node.  There are only so many of them: whoever follows links from a node comes
to an end, and to no node twice.

* `Drawing.Recedes` — no drawing of a row links back to itself;
* `Graph.Traces` — the nodes that links lead through, up to one without a link;
* `Graph.Advances` — links lead on, links back lead back, and chains end;
* `Graph.drawn_advances` — all this holds of the graph of every document, and of every
  part of one.
-/

namespace FlowTree

open Drawing

namespace Drawing

/-! ## Distances back -/

/-- No drawing of a row links back to itself. -/
def Recedes (ds : List Drawing) : Prop := ∀ d ∈ ds, ∀ k, d.previous = some k → 0 < k

theorem recedes_append {xs ys : List Drawing} (hx : Recedes xs) (hy : Recedes ys) :
    Recedes (xs ++ ys) := by
  intro d hd
  cases List.mem_append.1 hd with
  | inl h => exact hx d h
  | inr h => exact hy d h

theorem recedes_chainBehind {before : Option Nat} {ds : List Drawing}
    (h : ∀ k, before = some k → 0 < k) : Recedes (chainBehind before ds) := by
  induction ds generalizing before with
  | nil => simp [Recedes, chainBehind]
  | cons d rest ih =>
      have hrest : Recedes (chainBehind (some d.size) rest) := ih fun k hk => by
        have hsize := d.size_pos
        grind
      intro e he
      cases List.mem_cons.1 he with
      | inl htop =>
          rw [htop, previous_withLinks]
          exact h
      | inr hr => exact hrest e hr

theorem recedes_linkFirst {ds : List Drawing} (h : Recedes ds) : Recedes (linkFirst ds) := by
  cases ds with
  | nil => exact h
  | cons d rest =>
      obtain ⟨card, next, previous, lifts, children⟩ := d
      intro e he
      cases List.mem_cons.1 he with
      | inl htop => simp [htop, Drawing.previous]
      | inr hr => exact h e (List.mem_cons_of_mem _ hr)

theorem recedes_attachAll {ds : List Drawing} (h : Recedes ds)
    (hds : ∀ d ∈ ds, Recedes d.children) : Recedes (attachAll ds) := by
  intro e he
  obtain ⟨d, hd, he⟩ := List.mem_flatMap.1 he
  cases attach_cases d with
  | inl hkept =>
      obtain ⟨-, lifts, ha⟩ := hkept
      rw [ha, List.mem_singleton] at he
      subst he
      exact h d hd
  | inr hover =>
      rw [hover.2] at he
      cases List.mem_cons.1 he with
      | inl htop =>
          subst htop
          exact h d hd
      | inr hr => exact recedes_linkFirst (hds d hd) e hr

/-- A link back leads to an earlier position. -/
theorem lt_of_previous {entityId : String} {start reach i j : Nat} {parent : Option Nat}
    {ds : List Drawing} {n : Node} (hreach : reach ≤ start) (hb : Backs reach ds)
    (hr : Recedes ds) (hbacks : ∀ d ∈ ds, Everywhere (Backs 0) d)
    (hrecedes : ∀ d ∈ ds, Everywhere Recedes d) (hn : (n, j) ∈ placed entityId start parent ds)
    (hi : n.previous = some i) : i < j := by
  induction ds using forest_induction generalizing start reach parent with
  | nil => simp at hn
  | cons card next previous lifts children rest ihc ihr =>
      have hbelow := everywhere_iff.1 (hbacks _ List.mem_cons_self)
      have hbelow' := everywhere_iff.1 (hrecedes _ List.mem_cons_self)
      have hsize : Backs (reach + (sizeOfAll children + 1)) rest := hb.2
      rw [placed_cons] at hn
      cases List.mem_cons.1 hn with
      | inl htop =>
          obtain ⟨rfl, rfl⟩ := Prod.mk.inj htop
          obtain ⟨k, hk, rfl⟩ := Option.map_eq_some_iff.1 hi
          have hle : k ≤ reach := hb.1 k hk
          have hpos : 0 < k := hr _ List.mem_cons_self k hk
          show j - k < j
          omega
      | inr hn =>
          cases List.mem_append.1 hn with
          | inl hc => exact ihc (Nat.zero_le _) hbelow.1 hbelow'.1 hbelow.2 hbelow'.2 hc
          | inr hrest =>
              exact ihr (by omega) hsize (fun d hd => hr d (List.mem_cons_of_mem _ hd))
                (fun d hd => hbacks d (List.mem_cons_of_mem _ hd))
                (fun d hd => hrecedes d (List.mem_cons_of_mem _ hd)) hrest

end Drawing

variable {s : Scheme}

/-- No drawing that rows add to a list of children links back to itself. -/
theorem Row.recedes_drawAll {rows : List Row}
    (h : ∀ row ∈ rows, ∀ τ ∈ row.sites, Everywhere Recedes (τ.draw s)) :
    Recedes (Row.drawAll s rows) := by
  induction rows with
  | nil => simp [Recedes, Row.drawAll]
  | cons row rest ih =>
      have hrow : Recedes (row.draw s) := by
        unfold Row.draw
        split
        · exact recedes_chainBehind (by simp)
        · intro d hd
          obtain ⟨σ, -, rfl⟩ := List.mem_map.1 hd
          simp [σ.previous_draw]
      have hchildren : ∀ d ∈ row.draw s, Recedes d.children := by
        intro d hd
        obtain ⟨front, σ, after, next, previous, hs, rfl, -⟩ := Row.exists_of_mem_draw hd
        rw [children_withLinks]
        exact (everywhere_iff.1 (h row List.mem_cons_self σ (by simp [hs]))).1
      exact recedes_append (recedes_attachAll hrow hchildren)
        (ih fun r hr => h r (List.mem_cons_of_mem row hr))

/-- No drawing below a site links back to itself. -/
theorem Site.everywhere_recedes (σ : Site) : Everywhere Recedes (σ.draw s) := by
  induction σ using Site.induction (s := s) with
  | step σ ih =>
      have hrows : ∀ row ∈ σ.rows s, ∀ τ ∈ row.sites, Everywhere Recedes (τ.draw s) :=
        fun row hrow τ hτ => ih τ (List.mem_flatMap.2 ⟨row, hrow, hτ⟩)
      rw [everywhere_iff, Site.children_draw]
      exact ⟨Row.recedes_drawAll hrows, Row.everywhere_drawAll (by simp [Recedes]) hrows⟩

namespace Graph

/-! ## Chains -/

/-- The positions that links lead through from one position on, up to a node without a
link. -/
inductive Traces (g : Graph) : Nat → List Nat → Prop where
  | last {i : Nat} {n : Node} (hn : g.get? i = some n) (hend : n.next = none) : Traces g i [i]
  | step {i j : Nat} {n : Node} {order : List Nat} (hn : g.get? i = some n)
      (hnext : n.next = some j) (h : Traces g j order) : Traces g i (i :: order)

/-- There is one way on from a position. -/
theorem Traces.unique {g : Graph} {i : Nat} {order order' : List Nat} (h : g.Traces i order)
    (h' : g.Traces i order') : order = order' := by
  induction h generalizing order' with
  | last hn hend => cases h' <;> grind
  | step hn hnext _ ih => cases h' <;> grind

/-- Where links lead on, those that follow each other lead to later and later nodes. -/
theorem Traces.pairwise_lt {g : Graph} (hlt : ∀ i j, g.Leads i j → i < j) {i : Nat}
    {order : List Nat} (h : g.Traces i order) : order.Pairwise (· < ·) := by
  rw [← List.isChain_iff_pairwise]
  induction h with
  | last hn hend => exact .singleton _
  | @step i j n order hn hnext h ih =>
      have hij : i < j := hlt i j (leads_iff.2 ⟨n, hn, hnext⟩)
      cases h with
      | last => exact .cons_cons hij ih
      | step => exact .cons_cons hij ih

/-- Where links lead on and stay inside the graph, the bound of a chain is never met. -/
theorem traces_chainWithin {g : Graph} (hlt : ∀ i j, g.Leads i j → i < j ∧ j < g.size)
    {bound i : Nat} (hi : i < g.size) (hbound : g.size ≤ bound + i) :
    g.Traces i (g.chainWithin bound i) := by
  induction bound generalizing i with
  | zero => omega
  | succ bound ih =>
      obtain ⟨n, hn⟩ : ∃ n, g.get? i = some n := ⟨_, List.getElem?_eq_getElem hi⟩
      rw [chainWithin, hn, Option.bind_some]
      cases hnext : n.next with
      | none => exact .last hn hnext
      | some j =>
          obtain ⟨hij, hj⟩ := hlt i j (leads_iff.2 ⟨n, hn, hnext⟩)
          exact .step hn hnext (ih hj (by omega))

/-- Links lead to later nodes and links back to earlier ones, and whoever follows links
from a node comes to an end, and to no node twice. -/
structure Advances (g : Graph) : Prop where
  lt_of_leads : ∀ i j, g.Leads i j → i < j ∧ j < g.size
  lt_of_trails : ∀ i j, g.Trails i j → i < j
  /-- The way on from a node ends, and it is the chain from the node. -/
  traces_iff : ∀ i, i < g.size → ∀ order, g.Traces i order ↔ order = g.chain i
  nodup_chain : ∀ i, i < g.size → (g.chain i).Pairwise (· < ·) ∧ (g.chain i).Nodup

/-- In a graph drawn of rows a link back leads to an earlier node. -/
theorem lt_of_trails_toGraph (entityId : String) (kind : EntityKind) (card : Card) (lifts : Bool)
    (rows : List Row) {i j : Nat}
    (h : ((Drawing.node card none none lifts (Row.drawAll s rows)).toGraph entityId kind).Trails
      i j) : i < j := by
  obtain ⟨m, hm, hi⟩ := trails_iff.1 h
  have hbacks : Everywhere (Backs 0) (.node card none none lifts (Row.drawAll s rows)) :=
    everywhere_iff.2 ⟨Row.backs_drawAll fun _ _ τ _ => τ.everywhere_backs,
      Row.everywhere_drawAll trivial fun _ _ τ _ => τ.everywhere_backs⟩
  have hrecedes : Everywhere Recedes (.node card none none lifts (Row.drawAll s rows)) :=
    everywhere_iff.2 ⟨Row.recedes_drawAll fun _ _ τ _ => τ.everywhere_recedes,
      Row.everywhere_drawAll (by simp [Recedes]) fun _ _ τ _ => τ.everywhere_recedes⟩
  refine lt_of_previous (Nat.le_refl 0) ?_ ?_ ?_ ?_ (mem_placed_iff.2 hm) hi
  · simp [Backs, Drawing.previous]
  · simp [Recedes, Drawing.previous]
  · simpa using hbacks
  · simpa using hrecedes

/-- In a graph drawn of rows links advance. -/
theorem advances_toGraph (entityId : String) (kind : EntityKind) (card : Card) (lifts : Bool)
    (rows : List Row) :
    ((Drawing.node card none none lifts (Row.drawAll s rows)).toGraph entityId kind).Advances := by
  let g := (Drawing.node card none none lifts (Row.drawAll s rows)).toGraph entityId kind
  have hback : ∀ i j, g.Trails i j → i < j :=
    fun i j h => lt_of_trails_toGraph entityId kind card lifts rows h
  have hforth : ∀ i j, g.Leads i j → i < j ∧ j < g.size := by
    intro i j h
    -- the node that a link leads to links back
    have ht : g.Trails i j := (links_toGraph entityId kind card lifts rows).1 i j h
    obtain ⟨m, hm, -⟩ := trails_iff.1 ht
    exact ⟨hback i j ht, (List.getElem?_eq_some_iff.1 hm).1⟩
  have htraces : ∀ i, i < g.size → g.Traces i (g.chain i) :=
    fun i hi => traces_chainWithin hforth hi (by omega)
  have hpairwise : ∀ i, i < g.size → (g.chain i).Pairwise (· < ·) :=
    fun i hi => (htraces i hi).pairwise_lt fun a b h => (hforth a b h).1
  constructor
  case lt_of_leads => exact hforth
  case lt_of_trails => exact hback
  case traces_iff =>
    intro i hi order
    constructor
    · intro h
      exact h.unique (htraces i hi)
    · intro h
      rw [h]
      exact htraces i hi
  case nodup_chain =>
    intro i hi
    exact ⟨hpairwise i hi, (hpairwise i hi).imp Nat.ne_of_lt⟩

/-- **Following links.** Whatever the document, the catalog and the mappers, in the graph
of the document and of every part of it a link leads to a node created later, a link back
to one created earlier, and the chain from a node ends and holds no node twice. -/
theorem drawn_advances (s : Scheme) (d : Document) :
    (ofDocument s d).Advances ∧ ∀ path g, ofPart? s d path = some g → g.Advances := by
  have hdocument : (ofDocument s d).Advances := by
    rw [ofDocument_eq, Document.drawing_eq]
    exact advances_toGraph _ _ _ _ _
  refine ⟨hdocument, ?_⟩
  intro path g hg
  cases ofPart?_cases hg with
  | inl hwhole => exact hwhole.2 ▸ hdocument
  | inr hpart =>
      obtain ⟨σ, -, -, rfl⟩ := hpart
      rw [Site.draw_eq]
      exact advances_toGraph _ _ _ _ _

/-- The part of a route from its entry on, with two steps in it that hand theirs over: the
link of the first leads to the step it hands over, and the second still links back to it. -/
theorem drawn_advances_entry :
    let inner : Json := .obj [("from", .obj [("steps", .arr [.obj [("log", .obj [])]])])]
    let entry : Json := .obj [("uri", .str "timer:t"), ("steps", .arr [inner, inner])]
    let d : Document := ⟨.obj [("route", .obj [("from", entry)])], "route"⟩
    ∃ g, ofPart? Context.builtin.scheme d (d.rootPath.child "from") = some g ∧
      g.Leads 1 2 ∧ g.Trails 1 3 ∧ g.chain 1 = [1, 2] ∧ g.Advances := by
  intro inner entry d
  let part := ofPart? Context.builtin.scheme d (d.rootPath.child "from")
  obtain ⟨g, hg⟩ : ∃ g, part = some g := Option.isSome_iff_exists.1 (by decide +kernel)
  have hnext : (part.bind fun g => (g.get? 1).bind Node.next) = some 2 := by decide +kernel
  have hprevious : (part.bind fun g => (g.get? 3).bind Node.previous) = some 1 := by decide +kernel
  have hchain : part.map (fun g => g.chain 1) = some [1, 2] := by decide +kernel
  rw [hg] at hnext hprevious hchain
  exact ⟨g, hg, hnext, hprevious, Option.some.inj hchain, (drawn_advances _ d).2 _ g hg⟩

end Graph

end FlowTree
