import FlowTree.Proofs.Editor.RootSegment
import FlowTree.Proofs.Graph.Part

/-!
# FlowTree.Proofs.Graph.Descent

Building a graph goes down into the document.

A catalog may say that a processor has itself as a clause, so nothing in the catalog comes to
an end.  What is drawn below a site stands deeper in the document, though, under a longer
path.

* `Graph.Grounded` — every node stands for something in the document, and below its parent;
* `Graph.drawn_grounded` — building comes to an end within the height of a document, whatever
  the catalog says, and every graph that is built is grounded.
-/

namespace FlowTree

variable {s : Scheme}

/-! ## Grounded graphs -/

/-- An entry stands for something in a document, and below its parent. -/
def Entry.Grounded (d : Document) (e : Entry) : Prop :=
  (∃ definition, d.resolve e.card.path = some definition) ∧
    ∃ u, e.up = some u ∧ e.card.path.Extends u

namespace Graph

/-- Every node of a graph stands for something in a document, and below its parent. -/
structure Grounded (g : Graph) (d : Document) : Prop where
  /-- The path of a node leads to something. -/
  resolves : ∀ n ∈ g.nodes, ∃ definition, d.resolve n.card.path = some definition
  /-- The path of a node goes on behind that of its parent. -/
  descends : ∀ i n, g.get? i = some n → i ≠ g.root →
    ∃ j m, n.parent = some j ∧ g.get? j = some m ∧ n.card.path.Extends m.card.path

/-- A graph is grounded when its root stands for something and all other entries are
grounded. -/
theorem grounded_of_entries {g : Graph} {d : Document} {top : Card} {rest : List Entry}
    (hroot : g.root = 0) (h : g.entries = ⟨top, none⟩ :: rest)
    (htop : ∃ definition, d.resolve top.path = some definition)
    (hrest : ∀ e ∈ rest, e.Grounded d) : g.Grounded d := by
  constructor
  · intro n hn
    have hentry : g.entryOf n ∈ g.entries := List.mem_map_of_mem hn
    rw [h] at hentry
    cases List.mem_cons.1 hentry with
    | inl hroot =>
        have hcard : n.card = top := congrArg Entry.card hroot
        rwa [hcard]
    | inr hbelow => exact (hrest _ hbelow).1
  · intro i n hn hi
    have hentry : g.entries[i]? = some (g.entryOf n) := by
      rw [get?] at hn
      rw [entries, List.getElem?_map, hn]
      rfl
    cases i with
    | zero => exact absurd hroot.symm hi
    | succ k =>
        rw [h, List.getElem?_cons_succ] at hentry
        obtain ⟨-, u, hup, hextends⟩ := hrest _ (List.mem_of_getElem? hentry)
        obtain ⟨m, hm, rfl⟩ := Option.map_eq_some_iff.1 hup
        obtain ⟨j, hj, hm⟩ := Option.bind_eq_some_iff.1 hm
        exact ⟨j, m, hj, hm, hextends⟩

end Graph

section

variable {d : Document}

/-- What a site of a document shows is grounded when it stands below a longer path. -/
theorem Site.grounded_of_mem_listing {σ : Site} (hσ : σ.In d) {u : Path}
    (hu : σ.path.Extends u) {e : Entry} (h : e ∈ listing s (some u) σ) : e.Grounded d := by
  induction σ using Site.induction (s := s) generalizing u with
  | step σ ih =>
      rw [listing_eq] at h
      cases List.mem_cons.1 h with
      | inl htop =>
          rw [htop]
          exact ⟨⟨σ.definition, hσ⟩, u, rfl, hu⟩
      | inr hbelow =>
          obtain ⟨τ, hτ, he⟩ := List.mem_flatMap.1 hbelow
          obtain ⟨hin, hextends⟩ := hσ.descends hτ
          -- what is handed over stands below the node above, which has a shorter path still
          rcases σ.upBelow_cases s (some u) with hup | hup <;> rw [hup] at he
          · exact ih τ hτ hin (hextends.trans hu) he
          · exact ih τ hτ hin hextends he

/-- What sites of a document show below a node is grounded when their paths go on behind that
of the node. -/
theorem Site.grounded_of_mem_flatMap {below : List Site} {top : Path}
    (h : ∀ τ ∈ below, τ.In d ∧ τ.path.Extends top) {e : Entry}
    (he : e ∈ below.flatMap (listing s (some top))) : e.Grounded d := by
  obtain ⟨τ, hτ, he⟩ := List.mem_flatMap.1 he
  obtain ⟨hin, hextends⟩ := h τ hτ
  exact grounded_of_mem_listing hin hextends he

namespace Graph

theorem grounded_ofDocument (hd : ∃ definition, d.definition? = some definition) :
    (ofDocument s d).Grounded d := by
  rw [← d.resolve_rootPath] at hd
  have hroot : (ofDocument s d).root = 0 := by rw [ofDocument_eq]; rfl
  refine grounded_of_entries hroot (entries_ofDocument d) hd fun e he => ?_
  exact Site.grounded_of_mem_flatMap (fun τ hτ => Document.descends_of_mem_rootSites hτ) he

theorem grounded_toGraph_draw {σ : Site} (hσ : σ.In d) {entityId : String} {kind : EntityKind} :
    ((σ.draw s).toGraph entityId kind).Grounded d := by
  refine grounded_of_entries rfl (entries_toGraph_draw entityId kind σ) ⟨_, hσ⟩ fun e he => ?_
  exact Site.grounded_of_mem_flatMap (fun τ hτ => hσ.descends hτ) he

end Graph

end

/-! ## Documents with a definition -/

/-- A document that was loaded or is new, and was edited by any run of actions since, has a
definition under its root segment. -/
theorem Editor.exists_definition_run {e : Editor}
    (h : (∃ value, Document.ofJson value = .ok e.document) ∨ ∃ id, e.document = .newRoute id)
    (actions : List Action) :
    ∃ definition, (e.run actions).document.definition? = some definition := by
  have hkeys : e.document.value.keys = [e.document.root] := Document.keys_of_loaded h
  have hkept : e.document.root ∈ (e.run actions).document.value.keys :=
    (prefix_keys_run (by simp [hkeys]) actions).mem (by simp [hkeys])
  obtain ⟨fields, hfields⟩ := Json.exists_eq_obj_of_keys (List.ne_nil_of_mem hkept)
  rw [hfields] at hkept
  rw [Document.definition?, root_run, hfields]
  exact Fields.exists_get?_of_mem_keys hkept

namespace Graph

/-- **Descent.** Whatever the catalog says, processors are nested no deeper in a graph than
containers are in the document: building the document, or the part that any path addresses, by
paths alone comes to an end within a bound for its height, with the graph that it has.  In this
graph every node stands for something in the document, and every node but the root has a
path that goes on behind that of its parent. -/
theorem drawn_grounded (s : Scheme) (d : Document) :
    (∀ bound, d.value.height ≤ bound →
      ofDocumentWithin s d bound = some (ofDocument s d) ∧
        ∀ path, ofPartWithin s d bound path = some (ofPart? s d path)) ∧
      ((∃ definition, d.definition? = some definition) →
        (ofDocument s d).Grounded d ∧ ∀ path g, ofPart? s d path = some g → g.Grounded d) := by
  constructor
  case left =>
    intro bound hb
    exact ⟨ofDocumentWithin_eq hb, ofPartWithin_eq hb⟩
  case right =>
    intro hd
    have hdocument : (ofDocument s d).Grounded d := grounded_ofDocument hd
    refine ⟨hdocument, ?_⟩
    intro path g hg
    cases ofPart?_cases hg with
    | inl hwhole => exact hwhole.2 ▸ hdocument
    | inr hpart =>
        obtain ⟨σ, -, hσ, rfl⟩ := hpart
        exact grounded_toGraph_draw hσ

/-- A processor that has itself as a clause, three of them nested in each other, under mappers
one of which has an alias: the drawing takes three levels, and no fewer. -/
theorem drawn_grounded_recursive :
    let loop : StepsProperty := ⟨"loop", .singleClause⟩
    let catalog := Catalog.builtin.insertProcessor ⟨"loop", "Loop", none, none, [loop]⟩
    let s : Scheme := ⟨catalog, Mappers.builtin.addAlias "pipeline" "from"⟩
    let nested : Json := .obj [("loop", .obj [("loop", .obj [("loop", .obj [])])])]
    let d : Document := ⟨.obj [("intercept", .obj [("steps", .arr [nested])])], "intercept"⟩
    (ofDocument s d).size = 4 ∧
      (ofDocumentWithin s d 2).isNone ∧ (ofDocumentWithin s d 3).isSome ∧
      ofDocumentWithin s d d.value.height = some (ofDocument s d) ∧
      (ofDocument s d).Grounded d ∧
      ∃ g, ofPart? s d (d.rootPath.child "steps") = some g ∧ g.Grounded d := by
  intro loop catalog s nested d
  obtain ⟨hends, hgrounded⟩ := drawn_grounded s d
  obtain ⟨hwhole, hparts⟩ := hgrounded ⟨_, rfl⟩
  obtain ⟨g, hg⟩ : ∃ g, ofPart? s d (d.rootPath.child "steps") = some g :=
    Option.isSome_iff_exists.1 (by decide +kernel)
  exact ⟨by decide +kernel, by decide +kernel, by decide +kernel, (hends _ (Nat.le_refl _)).1,
    hwhole, g, hg, hparts _ g hg⟩

end Graph

end FlowTree
