import FlowTree.Proofs.Graph.Branch
import FlowTree.Proofs.Graph.Succession
import Mathlib.Data.List.Nodup

/-!
# FlowTree.Proofs.Graph.Order

Links are the order in which steps are executed.

What a drawn row leads to is the next step of a branch, or the first one behind the entry
of a route.  So the links of a document can be read off its arrays.

* `Document.Follows` — the order of execution, on paths;
* `Document.follows_of_leads`, `Document.Follows.exists_leads` — rows lead to what follows;
* `Document.ClausePath` — where clauses are stored, which never follow anything;
* `Graph.next_iff_follows` — links say what follows.
-/

namespace FlowTree

open FlowTree.Json FlowTree.Path

/-- The first site of a branch is that of the first step in it. -/
theorem Site.headPath?_ofElements (branch : Path) (items : List Json) :
    headPath? (ofElements ofStep branch 0 items) = (stepsOf items).head?.map branch.stepAt := by
  rw [headPath?, ← List.head?_map, map_path_ofElements, List.head?_map]
  rfl

namespace Document

variable {s : Scheme} {d : Document}

/-! ## Order -/

/-- The order of execution, on paths.  Steps follow each other in their branch, unless its
owner runs them side by side; and the first step of a route follows the entry. -/
inductive Follows (s : Scheme) (d : Document) : Path → Path → Prop where
  | step {owner : String} {branch : Path} {items : List Json} {first second : Nat × String}
      (h : d.Branch s owner branch items) (ho : owner ∉ Context.parallel)
      (hc : [first, second] <:+: stepsOf items) :
    Follows s d (branch.stepAt first) (branch.stepAt second)
  | entry {items : List Json} {first : Nat × String} (hk : d.kind = .route)
      (h : d.resolve ((d.rootPath.child "from").child "steps") = some (.arr items))
      (hf : (stepsOf items).head? = some first) :
    Follows s d (d.rootPath.child "from") (((d.rootPath.child "from").child "steps").stepAt first)

/-- The first site below the entry of a route is that of its first step. -/
theorem Draws.headPath?_below_iff {σ : Site} (hσ : d.Draws Context.builtin.scheme σ)
    (hfrom : σ.processor = "from") {q : Path} :
    Site.headPath? (σ.below Context.builtin.scheme) = some q ↔
      ∃ items first, d.resolve (σ.path.child "steps") = some (.arr items) ∧
        (stepsOf items).head? = some first ∧ q = (σ.path.child "steps").stepAt first := by
  constructor
  · intro hq
    obtain ⟨τ, hτ, -⟩ := Option.map_eq_some_iff.1 hq
    have hmem : τ ∈ σ.below Context.builtin.scheme := List.mem_of_head? hτ
    obtain ⟨row, hrow, -⟩ := List.mem_flatMap.1 hmem
    obtain ⟨fields, hd⟩ := Site.exists_fields_of_mem_rows hrow
    rw [Site.below_from hfrom hd] at hmem hq
    obtain ⟨-, -, items, hv⟩ := Row.exists_branch_of_links rfl hmem
    rw [Row.ofProperty_branch rfl hv, Site.headPath?_ofElements] at hq
    obtain ⟨first, hfirst, rfl⟩ := Option.map_eq_some_iff.1 hq
    exact ⟨items, first, hσ.resolve_child_iff.2 ⟨fields, hd, hv⟩, hfirst, rfl⟩
  · rintro ⟨items, first, hitems, hfirst, rfl⟩
    obtain ⟨fields, hd, hv⟩ := hσ.resolve_child_iff.1 hitems
    rw [Site.below_from hfrom hd, Row.ofProperty_branch rfl hv, Site.headPath?_ofElements, hfirst]
    rfl

/-- What a drawn row leads to follows. -/
theorem follows_of_leads (h : d.PlainBranches Context.builtin.scheme) {row : Row} {p q : Path}
    (hrow : Row.DrawnIn Context.builtin.scheme (d.rootRows Context.builtin.scheme) row)
    (hleads : row.Leads Context.builtin.scheme p q) :
    d.Follows Context.builtin.scheme p q := by
  have hs := Context.orderly_builtin
  cases hleads with
  | @handed σ τ more hσ hlifts hbelow =>
    have hdraws := draws_of_drawnIn hrow hσ
    have hfrom : σ.processor = "from" := Context.lifts_builtin_iff.1 hlifts
    obtain ⟨hroute, hpath⟩ := hdraws.eq_entry h hfrom
    obtain ⟨items, first, hitems, hfirst, hτ⟩ := (hdraws.headPath?_below_iff hfrom).1
      (congrArg Site.headPath? hbelow)
    rw [hpath] at hitems hτ ⊢
    rw [hτ]
    exact .entry hroute hitems hfirst
  | @chained σ τ hpair hl _ =>
    obtain ⟨owner, branch, items, hbranch, ho, hsites⟩ :=
      exists_branch_of_drawnIn hrow hl (hpair.subset List.mem_cons_self)
    have hpaths := hpair.map Site.path
    rw [hsites, Site.map_path_ofElements] at hpaths
    obtain ⟨first, second, hsteps, hp, hq⟩ := infix_map_pair_iff.1 hpaths
    rw [← hp, ← hq]
    exact .step hbranch ho hsteps

/-- What follows is led to by a drawn row. -/
theorem Follows.exists_leads (h : d.PlainBranches Context.builtin.scheme) {p q : Path}
    (hf : d.Follows Context.builtin.scheme p q) :
    ∃ row, Row.DrawnIn Context.builtin.scheme (d.rootRows Context.builtin.scheme) row ∧
      row.Leads Context.builtin.scheme p q := by
  have hs := Context.orderly_builtin
  cases hf with
  | @step owner branch items first second hbranch ho hc =>
    obtain ⟨row, hrow, hsites, hlinks⟩ := hbranch.exists_row
    have hpaths := hc.map branch.stepAt
    rw [stepsOf, ← Site.map_path_ofElements, ← hsites] at hpaths
    obtain ⟨σ, τ, hpair, hσ, hτ⟩ := infix_map_pair_iff.1 hpaths
    have hkeeps := not_lifts_of_links h hrow (hlinks ho) (hpair.subset List.mem_cons_self)
    rw [← hσ, ← hτ]
    exact ⟨row, hrow, .chained hpair (hlinks ho) (by simp [hkeeps])⟩
  | entry hk hitems hfirst =>
    obtain ⟨fields, hobj, -⟩ := exists_fields_of_resolve_child hitems
    have hrow := drawnIn_entry (s := Context.builtin.scheme) hk hobj
    have hσ := draws_of_drawnIn hrow (List.mem_singleton.2 rfl)
    have hhead := (hσ.headPath?_below_iff rfl).2 ⟨_, _, hitems, hfirst, rfl⟩
    obtain ⟨τ, hτ, hpath⟩ := Option.map_eq_some_iff.1 hhead
    obtain ⟨more, hmore⟩ := List.head?_eq_some_iff.1 hτ
    have hlifts : (d.entry (.obj fields)).lifts Context.builtin.scheme = true :=
      Context.lifts_builtin_iff.2 rfl
    have hleads : Row.Leads Context.builtin.scheme ⟨false, [d.entry (.obj fields)]⟩
        (d.rootPath.child "from") τ.path := .handed (List.mem_singleton.2 rfl) hlifts hmore
    rw [hpath] at hleads
    exact ⟨_, hrow, hleads⟩

/-! ## Clauses -/

/-- The paths of clauses: that of a steps property that holds one, those of the elements of
one that holds several, and those of the keys in them that have its name. -/
inductive ClausePath (s : Scheme) (d : Document) : Path → Prop where
  | single {K : Holder} {ps : List StepsProperty} {p : StepsProperty} (hK : d.Holds s K)
      (hr : K.reading = .declared ps) (hp : p ∈ ps) (hk : p.kind = .singleClause) :
    ClausePath s d (K.path.child p.name)
  | element {K : Holder} {ps : List StepsProperty} {p : StepsProperty} (i : Nat)
      (hK : d.Holds s K) (hr : K.reading = .declared ps) (hp : p ∈ ps)
      (hk : p.kind = .clauseArray) :
    ClausePath s d ((K.path.child p.name).elementAt i)
  | wrapped {K : Holder} {ps : List StepsProperty} {p : StepsProperty} (i : Nat)
      (hK : d.Holds s K) (hr : K.reading = .declared ps) (hp : p ∈ ps)
      (hk : p.kind = .clauseArray) :
    ClausePath s d (((K.path.child p.name).elementAt i).child p.name)

/-- Holders at one path are read alike. -/
theorem Holds.reading_eq (hs : s.Orderly) {K K' : Holder} (hK : d.Holds s K)
    (hK' : d.Holds s K') (h : K.path = K'.path) : K.reading = K'.reading := by
  cases hK with
  | root =>
    cases hK' with
    | root => rfl
    | @under K' τ hK' hτ => exact absurd h.symm (Draws.path_ne_rootPath ⟨K', hK', hτ⟩)
  | @under K σ hK hσ =>
    have hσ : d.Draws s σ := ⟨K, hK, hσ⟩
    cases hK' with
    | root => exact absurd h hσ.path_ne_rootPath
    | @under K' τ hK' hτ =>
      -- the path of a site says what its processor is
      have haddressed := processorAt?_of_draws hs hσ
      rw [show σ.path = τ.path from h, processorAt?_of_draws hs ⟨K', hK', hτ⟩] at haddressed
      have hprocessor : τ.processor = σ.processor := (Prod.mk.inj (Option.some.inj haddressed)).2
      simp only [Site.holder, Site.properties, Site.mapper, hprocessor]

/-- Steps properties at one path are one. -/
theorem Holds.property_eq (hs : s.Orderly) {K K' : Holder} (hK : d.Holds s K)
    (hK' : d.Holds s K') {p p' : StepsProperty} (hp : p ∈ K.reading.properties)
    (hp' : p' ∈ K'.reading.properties) (h : K.path.child p.name = K'.path.child p'.name) :
    p = p' := by
  obtain ⟨hpath, hname⟩ := child_inj.1 h
  rw [← hK.reading_eq hs hK' hpath] at hp'
  exact List.inj_on_of_nodup_map (hK.orderly hs).nodup hp hp' hname

/-- No step of a branch stands where a clause does. -/
theorem IsBranch.not_clausePath (hs : s.Orderly) {branch : Path} (h : d.IsBranch s branch)
    (step : Nat × String) : ¬ d.ClausePath s (branch.stepAt step) := by
  obtain ⟨K, p, hK, hp, hkind, rfl⟩ := h
  generalize hq : ((K.path.child p.name).stepAt step) = q
  intro hc
  cases hc with
  | @single K' ps p' hK' hr hp' hk =>
    have hp' : p' ∈ K'.reading.properties := by rwa [hr]
    obtain ⟨hpath, -⟩ := child_inj.1 hq
    obtain ⟨name, hlast⟩ := hK'.last_of_singleClause hs hp' hk
    rw [← hpath, last_elementAt] at hlast
    contradiction
  | @element K' ps p' i hK' hr hp' hk =>
    have hlast := congrArg last hq
    rw [stepAt, last_child, last_elementAt] at hlast
    contradiction
  | @wrapped K' ps p' i hK' hr hp' hk =>
    have hp' : p' ∈ K'.reading.properties := by rwa [hr]
    obtain ⟨hpath, -⟩ := elementAt_inj.1 (child_inj.1 hq).1
    rw [hK.property_eq hs hK' hp hp' hpath, hk] at hkind
    contradiction

/-- The entry of a route is no clause. -/
theorem not_clausePath_entry (hs : s.Orderly) (hk : d.kind = .route) :
    ¬ d.ClausePath s (d.rootPath.child "from") := by
  generalize hq : d.rootPath.child "from" = q
  intro hc
  cases hc with
  | @single K ps p hK hr hp hkind =>
    obtain ⟨hpath, -⟩ := child_inj.1 hq
    have hreading := Holds.root.reading_eq hs hK hpath
    rw [hr, holder, rootReading, if_pos hk] at hreading
    contradiction
  | element i hK hr hp hkind =>
    have hlast := congrArg last hq
    rw [last_child, last_elementAt] at hlast
    contradiction
  | @wrapped K ps p i hK hr hp hkind =>
    obtain ⟨hpath, -⟩ := child_inj.1 hq
    have hlast := congrArg last hpath
    rw [last_elementAt] at hlast
    contradiction

/-- Clauses neither follow anything nor are followed. -/
theorem Follows.not_clausePath {p q : Path} (h : d.Follows Context.builtin.scheme p q) :
    ¬ d.ClausePath Context.builtin.scheme p ∧ ¬ d.ClausePath Context.builtin.scheme q := by
  have hs := Context.orderly_builtin
  cases h with
  | step hbranch _ _ =>
    exact ⟨hbranch.isBranch.not_clausePath hs _, hbranch.isBranch.not_clausePath hs _⟩
  | entry hk h _ =>
    exact ⟨not_clausePath_entry hs hk, (branch_entry hk h).isBranch.not_clausePath hs _⟩

end Document

/-! ## Nodes -/

namespace Graph

variable {d : Document} {n m : Node} {i j : Nat}

/-- A link says what follows. -/
theorem next_eq_some_iff (h : d.PlainBranches Context.builtin.scheme)
    (hn : (ofDocument Context.builtin.scheme d).get? i = some n) :
    n.next = some j ↔ ∃ m, (ofDocument Context.builtin.scheme d).get? j = some m ∧
      d.Follows Context.builtin.scheme n.card.path m.card.path := by
  have hs := Context.orderly_builtin
  constructor
  · intro hj
    obtain ⟨m, row, hm, hrow, hleads⟩ := exists_leads_of_next hn hj
    exact ⟨m, hm, Document.follows_of_leads h hrow hleads⟩
  · rintro ⟨m, hm, hfollows⟩
    obtain ⟨row, hrow, hleads⟩ := hfollows.exists_leads h
    obtain ⟨n', i', m', j', hn', hm', hpath, hpath', hnext⟩ := exists_next_of_leads hrow hleads
    obtain rfl := eq_of_path hs hn' hn hpath
    obtain rfl := eq_of_path hs hm' hm hpath'
    rwa [Option.some.inj (hn'.symm.trans hn)] at hnext

/-- Where branches are plain, links lead forth and back alike. -/
theorem linksSymmetric_of_plain (h : d.PlainBranches Context.builtin.scheme) :
    (ofDocument Context.builtin.scheme d).LinksSymmetric := by
  rw [ofDocument_eq, Document.drawing_eq]
  refine (links_toGraph _ _ _ _ _).2.2 fun row hrow hcut => ?_
  obtain ⟨hl, front, σ, after, hsites, -, hlifts, -⟩ := hcut
  rw [Document.not_lifts_of_links h hrow hl (by simp [hsites])] at hlifts
  contradiction

/-- The nodes of clauses have no links. -/
theorem unlinked_of_clausePath (h : d.PlainBranches Context.builtin.scheme)
    (hn : (ofDocument Context.builtin.scheme d).get? i = some n)
    (hc : d.ClausePath Context.builtin.scheme n.card.path) :
    n.next = none ∧ n.previous = none := by
  constructor
  · refine Option.eq_none_iff_forall_ne_some.2 fun j hj => ?_
    obtain ⟨m, -, hfollows⟩ := (next_eq_some_iff h hn).1 hj
    exact hfollows.not_clausePath.1 hc
  · refine Option.eq_none_iff_forall_ne_some.2 fun j hj => ?_
    obtain ⟨m, hm, hi⟩ := leads_iff.1 ((linksSymmetric_of_plain h j i).2 (trails_iff.2 ⟨n, hn, hj⟩))
    obtain ⟨n', hn', hfollows⟩ := (next_eq_some_iff h hm).1 hi
    rw [Option.some.inj (hn'.symm.trans hn)] at hfollows
    exact hfollows.not_clausePath.2 hc

open Drawing in
/-- Below the root of a route stands what its entry adds. -/
theorem drawAll_route {s : Scheme} (hk : d.kind = .route) {definition : Json}
    (hr : d.resolve (d.rootPath.child "from") = some definition) :
    Row.drawAll s (d.rootRows s) = attach ((d.entry definition).draw s) := by
  rw [Document.rootRows_route hk hr]
  simp [Row.drawAll, Row.draw, attachAll]

open Drawing in
/-- In what is drawn of a route no link is missing. -/
theorem chained_route (h : d.PlainBranches Context.builtin.scheme) (hk : d.kind = .route)
    {definition : Json} (hr : d.resolve (d.rootPath.child "from") = some definition) :
    Chained (Row.drawAll Context.builtin.scheme (d.rootRows Context.builtin.scheme)) := by
  -- the steps are linked in one row, and none of them hands others over to it
  have hchildren : Chained ((d.entry definition).draw Context.builtin.scheme).children := by
    rw [Site.children_draw]
    cases hrows : (d.entry definition).rows Context.builtin.scheme with
    | nil => trivial
    | cons row rest =>
      have hmem : row ∈ (d.entry definition).rows Context.builtin.scheme :=
        hrows ▸ List.mem_cons_self
      have hrow := (Document.drawnIn_entry hk hr).under (List.mem_singleton.2 rfl) hmem
      obtain ⟨fields, hd⟩ := Site.exists_fields_of_mem_rows hmem
      rw [Site.rows_from rfl hd] at hrows
      obtain ⟨rfl, rfl⟩ := List.cons_eq_cons.1 hrows
      rw [Row.drawAll, List.flatMap_singleton]
      refine chained_attachAll_draw rfl fun σ hσ => ?_
      simp [Document.not_lifts_of_links h hrow rfl hσ]
  rw [drawAll_route hk hr]
  rcases attach_cases ((d.entry definition).draw Context.builtin.scheme) with
    ⟨-, lifts, ha⟩ | ⟨-, ha⟩ <;> rw [ha]
  · exact ⟨fun hne => absurd rfl hne, trivial⟩
  · exact ⟨fun _ => by simp [Drawing.next], chained_linkFirst hchildren⟩

/-- The entry of a route is the first node below the root. -/
theorem exists_entry_node {s : Scheme} (hk : d.kind = .route) {definition : Json}
    (hr : d.resolve (d.rootPath.child "from") = some definition) :
    ∃ n, (ofDocument s d).get? 1 = some n ∧ n.card.path = d.rootPath.child "from" := by
  have hentry : (ofDocument s d).entries[1]? =
      some ⟨(d.entry definition).card s, some d.rootPath⟩ := by
    rw [entries_ofDocument, Document.rootSites, Document.rootRows_route hk hr,
      List.flatMap_singleton, List.flatMap_singleton, Site.listing_eq]
    rfl
  rw [entries, List.getElem?_map] at hentry
  obtain ⟨n, hn, heq⟩ := Option.map_eq_some_iff.1 hentry
  exact ⟨n, hn, congrArg (fun e => e.card.path) heq⟩

/-! ## Plain documents -/

/-- Each site of a document has a node below the root. -/
theorem exists_node_of_draws {s : Scheme} (hs : s.Orderly) {τ : Site} (h : d.Draws s τ) :
    ∃ n ∈ (ofDocument s d).nodes.tail, n.card = τ.card s := by
  have hroot := h.path_ne_rootPath
  obtain ⟨K, hK, hτ⟩ := h
  have hr := hK.resolve_of_ne_nil (List.ne_nil_of_mem hτ)
  obtain ⟨e, he, hcard⟩ := hK.exists_entry hs hr K.accepts_self hτ
  rw [Document.writing_self hr] at he
  obtain ⟨n, hn, rfl⟩ := List.mem_map.1 he
  obtain ⟨top, hcons⟩ : ∃ top, (ofDocument s d).nodes = top :: (ofDocument s d).nodes.tail := by
    rw [ofDocument_eq, Document.drawing_eq]
    exact ⟨_, rfl⟩
  rw [hcons] at hn
  rcases List.mem_cons.1 hn with rfl | hn
  · have htop : (ofDocument s d).get? 0 = some n := by
      rw [get?, hcons]
      rfl
    exact absurd (congrArg Card.path (hcard.symm.trans (card_of_root htop))) hroot
  · exact ⟨n, hn, hcard⟩

end Graph

namespace Document

/-- No step is called `from` in the array that is stored under a steps property. -/
def PlainUnder (d : Document) (path : Path) (p : StepsProperty) : Prop :=
  ∀ items ∈ (d.resolve (path.child p.name)).bind Json.items?, ∀ item ∈ items,
    item.stepKey? ≠ some "from"

instance (d : Document) (path : Path) (p : StepsProperty) : Decidable (d.PlainUnder path p) :=
  inferInstanceAs (Decidable (∀ items ∈ (d.resolve (path.child p.name)).bind Json.items?,
    ∀ item ∈ items, item.stepKey? ≠ some "from"))

theorem plainUnder_iff {d : Document} {path : Path} {p : StepsProperty} :
    d.PlainUnder path p ↔ ∀ items, d.resolve (path.child p.name) = some (.arr items) →
      ∀ item ∈ items, item.stepKey? ≠ some "from" := by
  refine forall_congr' fun items => ?_
  have hitems {value : Json} : value.items? = some items ↔ value = .arr items := by
    cases value <;> simp [Json.items?]
  simp [Option.mem_def, Option.bind_eq_some_iff, hitems]

/-- Branches are plain when those below the root and below all other nodes are. -/
theorem plainBranches_iff {s : Scheme} (hs : s.Orderly) {d : Document} :
    d.PlainBranches s ↔
      (∀ p ∈ (d.rootReading s).properties, p.kind = .branch → d.PlainUnder d.rootPath p) ∧
        ∀ n ∈ (Graph.ofDocument s d).nodes.tail, ∀ p ∈ s.properties n.card.processor,
          p.kind = .branch → d.PlainUnder n.card.path p := by
  simp only [plainUnder_iff]
  constructor
  · refine fun h => ⟨fun p hp hk items hr => h _ _ _ (.root hp hk hr), ?_⟩
    intro n hn p hp hk items hr
    obtain ⟨i, hi⟩ := List.mem_iff_getElem?.1 hn
    rw [List.getElem?_tail] at hi
    obtain ⟨τ, hτ, hcard⟩ := Graph.exists_draws hi (Nat.succ_ne_zero i)
    rw [hcard] at hp hr
    exact h _ _ _ (.under hτ hp hk hr)
  · rintro ⟨hroot, hnodes⟩ owner branch items hbranch
    cases hbranch with
    | root hp hk hr => exact hroot _ hp hk items hr
    | @under τ p items hτ hp hk hr =>
      obtain ⟨n, hn, hcard⟩ := Graph.exists_node_of_draws hs hτ
      refine hnodes n hn p ?_ hk items ?_
      · rw [hcard]
        exact hp
      · rw [hcard]
        exact hr

instance (d : Document) : Decidable (d.PlainBranches Context.builtin.scheme) :=
  decidable_of_iff _ (plainBranches_iff Context.orderly_builtin).symm

end Document

namespace Graph

/-- **Order of execution.** Where branches are plain, a node is linked to another one exactly
when that is the next step of the same branch, whose owner does not run its steps side by
side, or the first step behind the entry of a route.  So clauses have no links, and from the
entry of a route they lead through all children of the root. -/
theorem next_iff_follows (d : Document) (h : d.PlainBranches Context.builtin.scheme) :
    let g := ofDocument Context.builtin.scheme d
    (∀ i n j, g.get? i = some n →
      (n.next = some j ↔ ∃ m, g.get? j = some m ∧
        d.Follows Context.builtin.scheme n.card.path m.card.path)) ∧
    (∀ i n, g.get? i = some n → d.ClausePath Context.builtin.scheme n.card.path →
      n.next = none ∧ n.previous = none) ∧
    ∀ definition, d.kind = .route → d.resolve (d.rootPath.child "from") = some definition →
      ∃ root n, g.get? 0 = some root ∧ g.get? 1 = some n ∧
        n.card.path = d.rootPath.child "from" ∧ g.chain 1 = root.children := by
  intro g
  refine ⟨fun i n j hn => next_eq_some_iff h hn, fun i n hn hc => unlinked_of_clausePath h hn hc,
    fun definition hk hr => ?_⟩
  obtain ⟨n, hn, hpath⟩ := exists_entry_node (s := Context.builtin.scheme) hk hr
  have hne : Row.drawAll Context.builtin.scheme (d.rootRows Context.builtin.scheme) ≠ [] := by
    obtain ⟨e, more, hattach, -⟩ := Drawing.exists_attach_eq_cons
      ((d.entry definition).draw Context.builtin.scheme)
    rw [drawAll_route hk hr, hattach]
    exact List.cons_ne_nil e more
  obtain ⟨root, hroot, hchain⟩ := chain_one_eq hne (chained_route h hk hr)
  exact ⟨root, n, hroot, hn, hpath, hchain⟩

/-- A route with a step, something that is none, and a choice with a clause. -/
theorem next_iff_follows_choice :
    let step (name : String) : Json := .obj [(name, .obj [])]
    let clause : Json := .obj [("steps", .arr [step "to", step "stop"])]
    let choice : Json := .obj [("choice", .obj [("when", .arr [clause])])]
    let entry : Json := .obj [("uri", .str "timer:t"), ("steps", .arr [step "log", .null, choice])]
    let d : Document := ⟨.obj [("route", .obj [("from", entry)])], "route"⟩
    let g := ofDocument Context.builtin.scheme d
    d.PlainBranches Context.builtin.scheme ∧ (∃ n, g.get? 2 = some n ∧ n.next = some 3) ∧
      (∃ n, g.get? 4 = some n ∧ n.card.processor = "when" ∧ n.next = none ∧ n.previous = none) ∧
      ∃ root, g.get? 0 = some root ∧ g.chain 1 = root.children := by
  intro step clause choice entry d g
  have hplain : d.PlainBranches Context.builtin.scheme := by decide +kernel
  obtain ⟨hnext, hclauses, hchain⟩ := next_iff_follows d hplain
  let steps := (d.rootPath.child "from").child "steps"
  obtain ⟨n, hn, hlog⟩ : ∃ n, g.get? 2 = some n ∧ n.card.path = steps.stepAt (0, "log") :=
    Option.map_eq_some_iff.1 (by decide +kernel)
  obtain ⟨m, hm, hchoice⟩ : ∃ m, g.get? 3 = some m ∧ (m.card.processor, m.card.path) =
      ("choice", steps.stepAt (2, "choice")) := Option.map_eq_some_iff.1 (by decide +kernel)
  obtain ⟨c, hc, hwhen⟩ : ∃ c, g.get? 4 = some c ∧ (c.card.processor, c.card.path) =
      ("when", ((steps.stepAt (2, "choice")).child "when").elementAt 0) :=
    Option.map_eq_some_iff.1 (by decide +kernel)
  simp only [Prod.mk.injEq] at hchoice hwhen
  refine ⟨hplain, ⟨n, hn, ?_⟩, ⟨c, hc, hwhen.1, ?_⟩, ?_⟩
  · have hsteps : d.resolve steps = some (.arr [step "log", .null, choice]) := by decide +kernel
    refine (hnext 2 n 3 hn).2 ⟨m, hm, ?_⟩
    rw [hlog, hchoice.2]
    exact .step (Document.branch_entry rfl hsteps) (by decide) ⟨[], [], rfl⟩
  · -- the clause is held by the choice
    obtain ⟨τ, ⟨K, hK, hτ⟩, hcard⟩ := exists_draws hm (by decide)
    have hprocessor : τ.processor = "choice" := by rw [← hchoice.1, hcard]; rfl
    have hpath : τ.path = steps.stepAt (2, "choice") := by rw [← hchoice.2, hcard]; rfl
    have hp : ⟨"when", .clauseArray⟩ ∈ Context.builtin.scheme.properties τ.processor := by
      rw [hprocessor]
      decide +kernel
    refine hclauses 4 c hc ?_
    rw [hwhen.2, ← hpath]
    exact .element 0 (hK.under hτ) rfl hp rfl
  · obtain ⟨root, -, hroot, -, -, hall⟩ := hchain entry rfl (by decide +kernel)
    exact ⟨root, hroot, hall⟩

end Graph

end FlowTree
