import FlowTree.Proofs.Document.Processor
import FlowTree.Proofs.Graph.Arena
import FlowTree.Proofs.Graph.Depth

/-!
# FlowTree.Proofs.Graph.Refinement

What is built in an arena is what is drawn.

The builder of a processor is told by what it does to the forest behind the nodes of an
arena.  It adds the drawing of the processor there, whatever stood there before, once the
builders of the processors below it do so.  Those are known by their paths alone, but what
stands in a document is found again by its path, and below a path that leads to something
only so many longer ones do.

* `Builder.Turns`, `Builder.Adds` — a building turns one forest into another one, or adds
  one behind whatever there is;
* `BuildContext.adds_childrenOfProperty`, `Mapper.turns_buildChildren` — what is built below
  a node;
* `GraphBuilder.adds_buildWithin` — the builder of a processor adds its drawing;
* `Graph.ofDocumentWithin_eq`, `Graph.ofPartWithin_eq` — the height of a document is bound
  enough;
* `Graph.ofDocument_eq`, `Graph.ofPart?_eq` — the graphs are those of drawings.
-/

namespace FlowTree

open Drawing Arena

variable {entityId : String} {s : Scheme}

/-! ## Buildings and forests -/

namespace Builder

variable {α β : Type} {a : Arena} {ds es fs : List Drawing}

/-- From a forest behind the nodes of an arena, a building comes to an answer, with
another forest in its place. -/
def Turns (entityId : String) (a : Arena) (p : Builder α) (ds : List Drawing) (answer : α)
    (es : List Drawing) : Prop :=
  ∀ b, Grows entityId a b ds → ∃ c, p.run b = some (answer, c) ∧ Grows entityId a c es

/-- Behind the nodes of any arena, a building adds a forest; its answer is where this is. -/
def Adds (entityId : String) (p : Builder α) (answer : Nat → α) (ds : List Drawing) : Prop :=
  ∀ a : Arena, a.Sound → Turns entityId a p [] (answer a.size) ds

theorem turns_pure (answer : α) : Turns entityId a (pure answer) ds answer ds :=
  fun b h => ⟨b, rfl, h⟩

theorem turns_modify {f : Arena → Arena}
    (h : ∀ b, Grows entityId a b ds → Grows entityId a (f b) es) :
    Turns entityId a (modify f) ds () es :=
  fun b hb => ⟨f b, rfl, h b hb⟩

theorem Turns.bind {p : Builder α} {f : α → Builder β} {x : α} {y : β}
    (hp : Turns entityId a p ds x es) (hf : Turns entityId a (f x) es y fs) :
    Turns entityId a (p >>= f) ds y fs := by
  intro b hb
  obtain ⟨c, hrun, hc⟩ := hp b hb
  obtain ⟨e, hrun', he⟩ := hf c hc
  exact ⟨e, by rw [StateT.run_bind, hrun]; exact hrun', he⟩

/-- What a building adds stands behind the forest that there is. -/
theorem Adds.turns {p : Builder α} {answer : Nat → α} (h : Adds entityId p answer ds)
    (ha : a.Sound) (es : List Drawing) :
    Turns entityId a p es (answer (a.size + sizeOfAll es)) (es ++ ds) := by
  intro b hb
  obtain ⟨c, hrun, hc⟩ := h b (hb.sound ha) b (.refl b)
  rw [hb.size_eq] at hrun
  exact ⟨c, hrun, hb.append hc⟩

theorem adds_pure (answer : α) : Adds entityId (pure answer) (fun _ => answer) [] :=
  fun _ _ => turns_pure answer

/-- Buildings that follow each other have their answers, and their forests, in a row. -/
def answers (answer : β → Nat → α) (forest : β → List Drawing) : Nat → List β → List α
  | _, [] => []
  | start, x :: rest =>
    answer x start :: answers answer forest (start + sizeOfAll (forest x)) rest

theorem adds_mapM {f : β → Builder α} {answer : β → Nat → α} {forest : β → List Drawing}
    {xs : List β} (h : ∀ x ∈ xs, Adds entityId (f x) (answer x) (forest x)) :
    Adds entityId (xs.mapM f) (answers answer forest · xs) (xs.flatMap forest) := by
  induction xs with
  | nil => exact adds_pure []
  | cons x rest ih =>
      obtain ⟨hx, hrest⟩ := List.forall_mem_cons.1 h
      intro a ha
      rw [List.mapM_cons]
      refine (hx a ha).bind (((ih hrest).turns ha (forest x)).bind ?_)
      exact turns_pure _

/-- Buildings of one drawing each answer with the positions of the drawings. -/
theorem adds_mapM_id {f : β → Builder Nat} {drawing : β → Drawing} {xs : List β}
    (h : ∀ x ∈ xs, Adds entityId (f x) id [drawing x]) :
    Adds entityId (xs.mapM f) (positions · (xs.map drawing)) (xs.map drawing) := by
  have hanswers (start : Nat) :
      answers (fun _ => id) (fun x => [drawing x]) start xs = positions start (xs.map drawing) := by
    induction xs generalizing start with
    | nil => rfl
    | cons x rest ih =>
        rw [answers, ih fun y hy => h y (List.mem_cons_of_mem x hy)]
        rfl
  have hall := adds_mapM h
  rw [← List.map_eq_flatMap] at hall
  simpa only [hanswers] using hall

/-- Sites are built as they are drawn. -/
def AddsAll (entityId : String) (s : Scheme) (build : Path → String → Builder Nat)
    (sites : List Site) : Prop :=
  ∀ σ ∈ sites, Adds entityId (build σ.path σ.processor) id [σ.draw s]

end Builder

open Builder

/-! ## Reading the document -/

/-- The rows of steps properties of a definition; only an object has any. -/
def Row.ofDefinition (path : Path) (links : Bool) (ps : List StepsProperty) :
    Option Json → List Row
  | some (.obj fields) => ps.map (Row.ofProperty path links fields)
  | _ => []

theorem Site.rows_eq_ofDefinition (σ : Site) :
    σ.rows s = Row.ofDefinition σ.path (σ.mapper s).links (σ.properties s) (some σ.definition) := by
  unfold rows
  split <;> simp_all [Row.ofDefinition]

theorem Document.rootRows_eq_entry {d : Document} (h : d.kind = .route) :
    d.rootRows s = ((d.definition?.bind (Json.step? (.name "from"))).map fun definition =>
      ⟨false, [⟨d.rootPath.child "from", "from", definition⟩]⟩).toList := by
  unfold rootRows
  cases d.definition? with
  | none => rfl
  | some definition =>
      cases definition with
      | obj fields =>
          simp only [if_pos h, Option.bind_some, Json.step?]
          cases Fields.get? "from" fields <;> rfl
      | null | bool | num | str | arr => rfl

theorem Document.rootRows_eq_ofDefinition {d : Document} (h : d.kind ≠ .route) :
    d.rootRows s = Row.ofDefinition d.rootPath true (d.rootProperties s) d.definition? := by
  unfold rootRows
  split <;> simp_all [Row.ofDefinition]

namespace BuildContext

variable {c : BuildContext} {path : Path}

theorem valueAt_child (c : BuildContext) (path : Path) (key : String) :
    c.valueAt (path.child key) = (c.valueAt path).bind (Json.step? (.name key)) := by
  rw [valueAt, valueAt, Json.resolve, Json.resolve, Path.segments_child, Json.get?_append]
  congr 1
  funext value
  rw [Json.get?_cons]
  cases Json.step? (.name key) value <;> rfl

/-- The row of a steps property of the definition at a path. -/
def row (c : BuildContext) (path : Path) (links : Bool) (p : StepsProperty) : Row :=
  ⟨links && p.kind == .branch,
    ((c.valueAt (path.child p.name)).map (Site.ofValue (path.child p.name) p)).getD []⟩

/-- The rows that are read below a path are those of the definition there; one without
fields has nothing below it. -/
theorem rows_cases (c : BuildContext) (path : Path) (links : Bool) (ps : List StepsProperty) :
    ps.map (c.row path links) = Row.ofDefinition path links ps (c.valueAt path) ∨
      Row.ofDefinition path links ps (c.valueAt path) = [] ∧
        ∀ p, (c.row path links p).sites = [] := by
  have hread (key : String) : c.valueAt (path.child key) =
      (c.valueAt path).bind (Json.step? (.name key)) := c.valueAt_child path key
  cases hv : c.valueAt path with
  | none => exact .inr ⟨rfl, fun p => by rw [row, hread, hv]; rfl⟩
  | some value =>
      cases value with
      | obj fields =>
          refine .inl (List.map_congr_left fun p _ => ?_)
          rw [row, hread, hv]
          rfl
      | null | bool | num | str | arr =>
          exact .inr ⟨rfl, fun p => by rw [row, hread, hv]; rfl⟩

theorem drawAll_rows (c : BuildContext) (path : Path) (links : Bool) (ps : List StepsProperty) :
    Row.drawAll s (ps.map (c.row path links)) =
      Row.drawAll s (Row.ofDefinition path links ps (c.valueAt path)) := by
  cases c.rows_cases path links ps with
  | inl hrows => rw [hrows]
  | inr hempty =>
      rw [hempty.1]
      simp [Row.drawAll, Row.draw, hempty.2, chain, chainBehind, attachAll]

theorem mem_of_mem_row {p : StepsProperty} {ps : List StepsProperty} {links : Bool} {σ : Site}
    (hp : p ∈ ps) (hσ : σ ∈ (c.row path links p).sites) :
    σ ∈ (Row.ofDefinition path links ps (c.valueAt path)).flatMap Row.sites := by
  cases c.rows_cases path links ps with
  | inl hrows =>
      rw [← hrows]
      exact List.mem_flatMap.2 ⟨_, List.mem_map_of_mem hp, hσ⟩
  | inr hempty =>
      rw [hempty.2] at hσ
      contradiction

/-- The steps of a branch are its sites. -/
theorem stepsOf_eq (array : Path) (items : List Json) :
    stepsOf array items =
      (Site.ofElements Site.ofStep array 0 items).map fun σ => (σ.path, σ.processor) := by
  unfold stepsOf
  generalize 0 = i
  induction items generalizing i with
  | nil => rfl
  | cons item rest ih =>
      rw [List.zipIdx_cons, Site.ofElements, List.map_append, ← ih (i + 1)]
      cases item with
      | obj fields => cases fields <;> rfl
      | null | bool | num | str | arr => rfl

/-- So are the clauses of an array. -/
theorem clausesOf_eq (array : Path) (name : String) (items : List Json) :
    clausesOf array name items =
      (Site.ofElements (Site.ofClause name) array 0 items).map fun σ => (σ.path, σ.processor) := by
  unfold clausesOf
  generalize 0 = i
  induction items generalizing i with
  | nil => rfl
  | cons item rest ih =>
      rw [List.zipIdx_cons, Site.ofElements, List.map_append, ← ih (i + 1)]
      cases item with
      | obj fields =>
          rcases fields with - | ⟨⟨key, value⟩, - | ⟨field, fields⟩⟩
          · rfl
          · by_cases h : key = name <;> simp [Site.ofClause, h]
          · rfl
      | null | bool | num | str | arr => rfl

/-! ## Children -/

variable {build : Path → String → Builder Nat}

theorem adds_createCard (card : Card) :
    Adds c.entityId (c.createCard card) id [node card none none false []] := by
  intro a ha b hb
  have hsize : b.size = a.size := hb.size_eq
  refine ⟨b.push (c.detachedNode card), by rw [id, ← hsize]; rfl, hb.append (.push b card)⟩

theorem positions_chain (start : Nat) (ds : List Drawing) :
    positions start (chain ds) = positions start ds := by
  have h (ds : List Drawing) (start : Nat) (previous : Option Nat) :
      positions start (chainBehind previous ds) = positions start ds := by
    induction ds generalizing start previous with
    | nil => rfl
    | cons d rest ih => rw [chainBehind, positions, positions, size_withLinks, ih]
  exact h ds start none

theorem adds_sites {sites : List Site} (h : AddsAll entityId s build sites) :
    Adds entityId
      ((sites.map fun σ => (σ.path, σ.processor)).mapM fun (path, processor) =>
        build path processor)
      (positions · (sites.map (Site.draw s))) (sites.map (Site.draw s)) := by
  rw [List.mapM_map]
  exact adds_mapM_id h

/-- The elements of an array are built as the sites that are read in them. -/
theorem adds_elements {links : Bool} {p : StepsProperty} {read : List Json → List (Path × String)}
    (hk : p.kind ≠ .singleClause)
    (hread : ∀ items, read items =
      (Site.ofValue (path.child p.name) p (.arr items)).map fun σ => (σ.path, σ.processor))
    (h : AddsAll entityId s build (c.row path links p).sites) :
    Adds entityId
      (match c.valueAt (path.child p.name) with
        | some (.arr items) => (read items).mapM fun (path, processor) => build path processor
        | _ => return [])
      (positions · ((c.row path links p).sites.map (Site.draw s)))
      ((c.row path links p).sites.map (Site.draw s)) := by
  obtain ⟨name, kind⟩ := p
  rw [row] at h ⊢
  cases hv : c.valueAt (path.child name) with
  | none => exact adds_pure []
  | some value =>
      rw [hv] at h
      cases value with
      | arr items =>
          simp only [hread]
          exact adds_sites h
      | null | bool | num | str | obj =>
          cases kind with
          | singleClause => contradiction
          | branch | clauseArray => exact adds_pure []

theorem adds_branchChildren {name : String}
    (h : AddsAll entityId s build (c.row path false ⟨name, .branch⟩).sites) :
    Adds entityId (c.branchChildren build (path.child name))
      (positions · ((c.row path false ⟨name, .branch⟩).draw s))
      ((c.row path false ⟨name, .branch⟩).draw s) :=
  adds_elements (by simp) (stepsOf_eq (path.child name)) h

theorem adds_clauseArrayChildren {name : String}
    (h : AddsAll entityId s build (c.row path true ⟨name, .clauseArray⟩).sites) :
    Adds entityId (c.clauseArrayChildren build path name)
      (positions · ((c.row path true ⟨name, .clauseArray⟩).draw s))
      ((c.row path true ⟨name, .clauseArray⟩).draw s) :=
  adds_elements (by simp) (clausesOf_eq (path.child name) name) h

theorem adds_singleClause {σ : Site} (h : AddsAll entityId s build [σ]) :
    Adds entityId (do return [← build σ.path σ.processor]) (positions · [σ.draw s])
      [σ.draw s] := by
  intro a ha
  exact (h σ List.mem_cons_self a ha).bind (turns_pure _)

/-- What a steps property holds is built as its row is drawn. -/
theorem adds_childrenOfProperty {p : StepsProperty}
    (h : AddsAll entityId s build (c.row path true p).sites) :
    Adds entityId (c.childrenOfProperty build path p) (positions · ((c.row path true p).draw s))
      ((c.row path true p).draw s) := by
  obtain ⟨name, kind⟩ := p
  cases kind with
  | branch =>
      let steps := (c.row path true ⟨name, .branch⟩).sites.map (Site.draw s)
      have hunlinked : ∀ d ∈ steps, d.withLinks none none = d := by
        intro d hd
        obtain ⟨σ, -, rfl⟩ := List.mem_map.1 hd
        rw [Site.draw_eq, withLinks_eq]
      have hsteps : Adds entityId (c.branchChildren build (path.child name)) (positions · steps)
          steps := adds_branchChildren h
      have hdraw : (c.row path true ⟨name, .branch⟩).draw s = chain steps := rfl
      intro a ha
      simp only [hdraw, positions_chain]
      refine (hsteps a ha).bind (Turns.bind (turns_modify fun b hb => ?_) (turns_pure _))
      exact hb.linkChain hunlinked
  | clauseArray => exact adds_clauseArrayChildren h
  | singleClause =>
      unfold childrenOfProperty
      rw [row] at h ⊢
      cases hv : c.valueAt (path.child name) with
      | none => exact adds_pure []
      | some value =>
          rw [hv] at h
          cases value with
          | null => exact adds_pure []
          | bool | num | str | arr | obj => exact adds_singleClause h

end BuildContext

/-! ## Processors -/

section

variable {c : BuildContext} {build : Path → String → Builder Nat} {a : Arena} {card : Card}
  {lifts : Bool} {path : Path} {ps : List StepsProperty}

/-- What is built behind a node by itself is attached to it. -/
theorem Builder.Adds.turns_attach {p : Builder (List Nat)} {done ds : List Drawing}
    (h : Adds entityId p (positions · ds) ds) (ha : a.Sound) :
    Turns entityId a
      (do
        let children ← p
        modify (·.addChildren a.size children))
      [node card none none lifts done] () [node card none none lifts (done ++ attachAll ds)] := by
  have hadded := h.turns ha [node card none none lifts done]
  refine hadded.bind (turns_modify fun b hb => ?_)
  rw [← List.append_nil ds] at hb
  exact hb.addChildren ha

namespace BuildContext

/-- Rows that are built and attached one after the other. -/
theorem turns_properties (ha : a.Sound) (done : List Drawing)
    (h : ∀ p ∈ ps, AddsAll entityId s build (c.row path true p).sites) :
    Turns entityId a
      (ps.forM fun p => do
        let children ← c.childrenOfProperty build path p
        modify (·.addChildren a.size children))
      [node card none none lifts done] ()
      [node card none none lifts (done ++ Row.drawAll s (ps.map (c.row path true)))] := by
  induction ps generalizing done with
  | nil =>
      rw [List.map_nil, Row.drawAll, List.flatMap_nil, List.append_nil]
      exact turns_pure ()
  | cons p rest ih =>
      obtain ⟨hp, hrest⟩ := List.forall_mem_cons.1 h
      have hnext := ih (done ++ attachAll ((c.row path true p).draw s)) hrest
      rw [List.append_assoc] at hnext
      exact ((adds_childrenOfProperty hp).turns_attach ha).bind hnext

/-- Rows that stand behind a node are attached in turn. -/
theorem turns_addChildren {row : StepsProperty → List Drawing} (ha : a.Sound)
    (done : List Drawing) :
    Turns entityId a
      ((answers (fun p => (positions · (row p))) row (a.size + (sizeOfAll done + 1)) ps).forM
        fun children => modify (·.addChildren a.size children))
      (node card none none lifts done :: ps.flatMap row) ()
      [node card none none lifts (done ++ ps.flatMap fun p => attachAll (row p))] := by
  induction ps generalizing done with
  | nil =>
      rw [List.flatMap_nil, List.flatMap_nil, List.append_nil]
      exact turns_pure ()
  | cons p rest ih =>
      have hsize : a.size + (sizeOfAll (done ++ attachAll (row p)) + 1) =
          a.size + (sizeOfAll done + 1) + sizeOfAll (row p) := by
        rw [sizeOfAll_append, sizeOfAll_attachAll]
        omega
      have hnext := ih (done ++ attachAll (row p))
      rw [hsize, List.append_assoc] at hnext
      exact (turns_modify fun b hb => Grows.addChildren ha hb).bind hnext

/-- Rows that are all built before the first of them is attached. -/
theorem turns_rows (ha : a.Sound)
    (h : ∀ p ∈ ps, AddsAll entityId s build (c.row path true p).sites) :
    Turns entityId a
      (do
        let rows ← ps.mapM (c.childrenOfProperty build path)
        rows.forM fun children => modify (·.addChildren a.size children))
      [node card none none lifts []] ()
      [node card none none lifts (Row.drawAll s (ps.map (c.row path true)))] := by
  have hrows := adds_mapM fun p hp => adds_childrenOfProperty (h p hp)
  rw [Row.drawAll, List.flatMap_map]
  exact (hrows.turns ha _).bind (turns_addChildren ha [])

end BuildContext

namespace Mapper

variable {m : Mapper} {processor : String}

/-- What a mapper lays out below a node. -/
theorem turns_buildChildren (ha : a.Sound) (hc : c.catalog = s.catalog)
    (h : ∀ p ∈ m.properties s.catalog processor,
      AddsAll entityId s build (c.row path m.links p).sites) :
    Turns entityId a (m.buildChildren c build a.size path processor)
      [node card none none lifts []] ()
      [node card none none lifts
        (Row.drawAll s ((m.properties s.catalog processor).map (c.row path m.links)))] := by
  obtain ⟨name, layout, lifts'⟩ := m
  cases layout with
  | declared =>
      rw [buildChildren, hc]
      exact BuildContext.turns_properties ha [] h
  | fixed properties => exact BuildContext.turns_rows ha h
  | unlinked branch =>
      have hsteps := BuildContext.adds_branchChildren (h ⟨branch, .branch⟩ List.mem_cons_self)
      rw [properties, List.map_singleton, Row.drawAll, List.flatMap_singleton]
      exact hsteps.turns_attach ha

/-- A mapper adds the drawing of a site when what is below it is built as it is drawn. -/
theorem adds_buildNode {σ : Site} (hc : c.catalog = s.catalog)
    (hσ : c.valueAt σ.path = some σ.definition)
    (h : AddsAll c.entityId s build (σ.below s)) :
    Adds c.entityId ((σ.mapper s).buildNode c build σ.path σ.processor) id [σ.draw s] := by
  have hrows : σ.rows s =
      Row.ofDefinition σ.path (σ.mapper s).links (σ.properties s) (c.valueAt σ.path) :=
    hσ ▸ σ.rows_eq_ofDefinition
  have hcard : c.createNode σ.path σ.processor = c.createCard (σ.card s) := by
    rw [BuildContext.createNode, hc, hσ]
    rfl
  have hbelow : ∀ p ∈ σ.properties s,
      AddsAll c.entityId s build (c.row σ.path (σ.mapper s).links p).sites := by
    intro p hp τ hτ
    have hmem := BuildContext.mem_of_mem_row hp hτ
    rw [← hrows] at hmem
    exact h τ hmem
  have hdraw : σ.draw s = .node (σ.card s) none none (σ.lifts s)
      (Row.drawAll s ((σ.properties s).map (c.row σ.path (σ.mapper s).links))) := by
    rw [Site.draw_eq, c.drawAll_rows, ← hrows]
    rfl
  intro a ha
  rw [hdraw, buildNode, hcard, Site.lifts]
  refine (BuildContext.adds_createCard (σ.card s) a ha).bind
    ((turns_buildChildren ha hc hbelow).bind ?_)
  cases (σ.mapper s).lifts with
  | false => exact turns_pure _
  | true => exact (turns_modify fun b hb => hb.mark).bind (turns_pure _)

end Mapper

end

/-! ## Documents -/

namespace GraphBuilder

variable {d : Document} {a : Arena} {bound : Nat}

/-- A processor of a document is built as it is drawn, over a bound for what the height of the
document leaves below its path. -/
theorem adds_buildWithin {σ : Site} (hσ : σ.In d)
    (hb : d.value.height < bound + σ.path.length) :
    Adds d.entityId (s.builder.buildWithin d bound σ.path σ.processor) id [σ.draw s] := by
  induction bound generalizing σ with
  | zero =>
      have hfits : σ.path.length + σ.definition.height ≤ d.value.height :=
        Json.length_add_height_le hσ
      omega
  | succ bound ih =>
      have hbelow : AddsAll d.entityId s (s.builder.buildWithin d bound) (σ.below s) := by
        intro τ hτ
        obtain ⟨hin, hextends⟩ := hσ.descends hτ
        have hlonger := (Path.extends_iff_length.1 hextends).2
        exact ih hin (by omega)
      exact Mapper.adds_buildNode (c := s.builder.context d) rfl hσ hbelow

/-- The entry of a route is built when there is one. -/
theorem turns_entry (ha : a.Sound) (hk : d.kind = .route) {card : Card}
    (h : AddsAll d.entityId s (s.builder.buildWithin d bound) (d.rootSites s)) :
    Turns d.entityId a (s.builder.buildRootChildren d bound a.size)
      [node card none none false []] ()
      [node card none none false (Row.drawAll s (d.rootRows s))] := by
  let c := s.builder.context d
  have hvalue : c.valueAt (d.rootPath.child "from") =
      d.definition?.bind (Json.step? (.name "from")) := by
    rw [c.valueAt_child, ← d.resolve_rootPath]
    rfl
  have hbuild : s.builder.buildRootChildren d bound a.size = (do
      if (c.valueAt (d.rootPath.child "from")).isSome then
        let child ← s.builder.buildWithin d bound (d.rootPath.child "from") "from"
        modify (·.addChild a.size child)) := by
    rw [buildRootChildren, hk]
  rw [Document.rootSites, Document.rootRows_eq_entry hk] at h
  rw [Document.rootRows_eq_entry hk, hbuild, hvalue]
  cases hd : d.definition?.bind (Json.step? (.name "from")) with
  | none => exact turns_pure ()
  | some definition =>
      rw [hd] at h
      have hentry := h ⟨d.rootPath.child "from", "from", definition⟩ List.mem_cons_self
      rw [Option.map_some, Option.toList_some, Row.drawAll, List.flatMap_singleton]
      refine (hentry.turns ha _).bind (turns_modify fun b hb => ?_)
      have hattached := hb.addChild ha
      rwa [List.nil_append, ← List.append_nil (attach _)] at hattached

/-- So is what stands right below the root. -/
theorem turns_buildRootChildren (ha : a.Sound) {card : Card}
    (h : AddsAll d.entityId s (s.builder.buildWithin d bound) (d.rootSites s)) :
    Turns d.entityId a (s.builder.buildRootChildren d bound a.size)
      [node card none none false []] ()
      [node card none none false (Row.drawAll s (d.rootRows s))] := by
  by_cases hroute : d.kind = .route
  case pos => exact turns_entry ha hroute h
  let c := s.builder.context d
  have hvalue : c.valueAt d.rootPath = d.definition? := d.resolve_rootPath
  have hrows : Row.drawAll s (d.rootRows s) =
      Row.drawAll s ((d.rootProperties s).map (c.row d.rootPath true)) := by
    rw [c.drawAll_rows, hvalue, Document.rootRows_eq_ofDefinition hroute]
  have hbelow : ∀ p ∈ d.rootProperties s,
      AddsAll d.entityId s (s.builder.buildWithin d bound) (c.row d.rootPath true p).sites := by
    intro p hp τ hτ
    have hmem := BuildContext.mem_of_mem_row hp hτ
    rw [hvalue, ← Document.rootRows_eq_ofDefinition hroute] at hmem
    exact h τ hmem
  rw [hrows]
  rw [Document.rootProperties] at hbelow ⊢
  unfold buildRootChildren
  cases hk : d.kind with
  | route => contradiction
  | routeConfiguration =>
      rw [hk] at hbelow
      exact BuildContext.turns_properties ha [] hbelow
  | errorHandler | restConfiguration | rest | unknown => exact turns_pure ()
  | intercept | interceptFrom | interceptSendToEndpoint | onException | onCompletion =>
      rw [hk] at hbelow
      have hsteps := BuildContext.adds_childrenOfProperty
        (hbelow ⟨"steps", .branch⟩ List.mem_cons_self)
      change Turns _ a _ _ () [node card none none false
        (Row.drawAll s [c.row d.rootPath true ⟨"steps", .branch⟩])]
      rw [Row.drawAll, List.flatMap_singleton]
      exact hsteps.turns_attach ha

/-- A document is built as it is drawn, over a bound for its height. -/
theorem adds_buildRoot (hb : d.value.height ≤ bound) :
    Adds d.entityId (s.builder.buildRoot d bound) id [d.drawing s] := by
  have hsites : AddsAll d.entityId s (s.builder.buildWithin d bound) (d.rootSites s) := by
    intro σ hσ
    have hlong : 0 < σ.path.length := List.length_pos_iff.2 σ.path.nonempty
    exact adds_buildWithin (Document.descends_of_mem_rootSites hσ).1 (by omega)
  have hcard : (s.builder.context d).createEntityNode d.root d.kind =
      (s.builder.context d).createCard (.ofEntity s.catalog d.root d.kind d.definition?) := by
    rw [← d.resolve_rootPath]
    rfl
  intro a ha
  rw [buildRoot, hcard, Document.drawing_eq]
  exact (BuildContext.adds_createCard (c := s.builder.context d) _ a ha).bind
    ((turns_buildRootChildren ha hsites).bind (turns_pure _))

/-- What is added to an empty arena comes out as the graph of the drawing. -/
theorem finish_eq {p : Builder Nat} {drawing : Drawing} (h : Adds d.entityId p id [drawing]) :
    finish d p = some (drawing.toGraph d.entityId d.kind) := by
  have hsound : Arena.empty.Sound := fun _ hi => by contradiction
  obtain ⟨b, hrun, hb⟩ := h .empty hsound .empty (.refl _)
  rw [finish, hrun, Option.map_some]
  exact congrArg some (hb.finish d.kind)

end GraphBuilder

/-! ## Graphs -/

namespace Graph

variable {d : Document}

theorem ofDocumentWithin_eq_drawing {bound : Nat} (hb : d.value.height ≤ bound) :
    ofDocumentWithin s d bound = some ((d.drawing s).toGraph d.entityId d.kind) :=
  GraphBuilder.finish_eq (GraphBuilder.adds_buildRoot hb)

/-- The graph that is built of a document is that of its drawing. -/
theorem ofDocument_eq (s : Scheme) (d : Document) :
    ofDocument s d = (d.drawing s).toGraph d.entityId d.kind := by
  rw [ofDocument, ofDocumentWithin_eq_drawing (Nat.le_refl _)]
  rfl

/-- The nodes that are built of a document are those of its drawing. -/
theorem mem_placed_drawing_iff {n : Node} {i : Nat} :
    (n, i) ∈ placed d.entityId 0 none [d.drawing s] ↔ (ofDocument s d).get? i = some n := by
  rw [ofDocument_eq]
  exact mem_placed_iff

/-- A document is built within any bound for its height. -/
theorem ofDocumentWithin_eq {bound : Nat} (hb : d.value.height ≤ bound) :
    ofDocumentWithin s d bound = some (ofDocument s d) := by
  rw [ofDocumentWithin_eq_drawing hb, ofDocument_eq]

/-- The graph of what a path addresses, told by drawings. -/
def drawnPart? (s : Scheme) (d : Document) (path : Path) : Option Graph :=
  if d.isRootPath path then some (ofDocument s d)
  else do
    let (path, processor) ← d.processorAt? path
    let definition ← d.resolve path
    return (draw s path processor definition).toGraph d.entityId d.kind

/-- So is the part that a path addresses. -/
theorem ofPartWithin_eq_drawnPart? {bound : Nat} (hb : d.value.height ≤ bound) (path : Path) :
    ofPartWithin s d bound path = some (drawnPart? s d path) := by
  rw [ofPartWithin, GraphBuilder.buildPart, drawnPart?]
  split
  · have hwhole : s.builder.build d bound = some (ofDocument s d) := ofDocumentWithin_eq hb
    rw [hwhole]
    rfl
  · cases hp : d.processorAt? path with
    | none => rfl
    | some found =>
        obtain ⟨at', processor⟩ := found
        obtain ⟨definition, hd⟩ := Document.exists_definition_of_processorAt? hp
        have hlong : 0 < at'.length := List.length_pos_iff.2 at'.nonempty
        have hin : Site.In d ⟨at', processor, definition⟩ := hd
        have hbound : d.value.height < bound + at'.length := by omega
        have hbuilt : GraphBuilder.finish d (s.builder.buildWithin d bound at' processor) = _ :=
          GraphBuilder.finish_eq (GraphBuilder.adds_buildWithin hin hbound)
        simp [hd, hbuilt, Site.draw]

theorem ofPart?_eq (s : Scheme) (d : Document) (path : Path) :
    ofPart? s d path = drawnPart? s d path := by
  rw [ofPart?, ofPartWithin_eq_drawnPart? (Nat.le_refl _)]
  rfl

theorem ofPartWithin_eq {bound : Nat} (hb : d.value.height ≤ bound) (path : Path) :
    ofPartWithin s d bound path = some (ofPart? s d path) := by
  rw [ofPartWithin_eq_drawnPart? hb, ofPart?_eq]

/-- A part of a document is the whole of it, or the drawing of a site that is stored where
the path leads. -/
theorem ofPart?_cases {path : Path} {g : Graph} (h : ofPart? s d path = some g) :
    (d.isRootPath path = true ∧ g = ofDocument s d) ∨
      ∃ σ : Site, d.processorAt? path = some (σ.path, σ.processor) ∧
        d.resolve σ.path = some σ.definition ∧ g = (σ.draw s).toGraph d.entityId d.kind := by
  rw [ofPart?_eq, drawnPart?] at h
  split at h
  · exact .inl ⟨‹_›, (Option.some.inj h).symm⟩
  · obtain ⟨⟨at', processor⟩, hp, h⟩ := Option.bind_eq_some_iff.1 h
    obtain ⟨definition, hd, h⟩ := Option.bind_eq_some_iff.1 h
    exact .inr ⟨⟨at', processor, definition⟩, hp, hd, (Option.some.inj h).symm⟩

end Graph

end FlowTree
