import FlowTree.Proofs.Document.Child
import FlowTree.Proofs.Graph.Removal

/-!
# FlowTree.Proofs.Graph.Insertion

Inserting a child below a drawn node.

The graph before the insertion is the graph after it less the entries of the new element:
what an insertion draws is what a removal would take away again.

* `Json.exists_of_insertChild_applied`, `Json.exists_of_stored?_branch` — what an
  insertion that is carried out writes;
* `Document.processorAt?_of_draws` — the path of a site addresses its processor;
* `Graph.entries_insertChild` — a child that is inserted under `steps` is drawn, and hides
  nothing.
-/

namespace FlowTree

open FlowTree.Json FlowTree.Path

/-- The position of a child among the steps, given what is stored as steps before. -/
def ChildMode.position (mode : ChildMode) (steps : Option Json) : Nat :=
  match mode, steps with
  | .append, some (.arr items) => items.length
  | _, _ => 0

/-- Where a path leads when a child that was put among the steps at `steps` is taken away
again: behind the first of them every position is one less. -/
def ChildMode.closing (mode : ChildMode) (steps path : Path) : Path :=
  match mode with
  | .first => path.retarget steps 0
  | .append => path

namespace Json

/-- An insertion that is carried out writes the fields of a definition with the child. -/
theorem exists_of_insertChild_applied {doc value : Json} {catalog : Catalog} {path : Path}
    {processor property : String} {mode : ChildMode}
    (h : (doc.insertChild catalog path processor property value mode).verdict = .done .applied) :
    ∃ target declared fields new, doc.resolve path = some target ∧
      catalog.stepsProperty? processor property = some declared ∧
      definitionFields? target = some fields ∧
      stored? declared value mode (Fields.get? property fields) = some new ∧
      doc.insertChild catalog path processor property value mode =
        .applied (overwrite path.segments (.obj (Fields.put property new fields)) doc) := by
  rw [insertChild_eq] at h ⊢
  split at h
  · simp at h
  rename_i target ht
  split at h
  · simp at h
  rename_i declared hd
  split at h
  · simp at h
  rename_i fields hf
  split at h
  · simp at h
  rename_i new hs
  exact ⟨target, declared, fields, new, ht, hd, hf, hs, rfl⟩

/-- In a branch the child stands between steps that were there, if any. -/
theorem exists_of_stored?_branch {name : String} {value new : Json} {mode : ChildMode}
    {held : Option Json} (h : stored? ⟨name, .branch⟩ value mode held = some new) :
    ∃ xs ys, new = .arr (xs ++ value :: ys) ∧ xs.length = mode.position held ∧
      (mode = .first ∧ xs = [] ∨ mode = .append ∧ ys = []) ∧
      (held = some (.arr (xs ++ ys)) ∨ xs ++ ys = [] ∧ (held = none ∨ held = some .null)) := by
  obtain ⟨items, hitems, rfl⟩ := Option.map_eq_some_iff.1 h
  have hheld := children?_eq_some_iff.1 hitems
  cases mode with
  | first => exact ⟨[], items, rfl, rfl, .inl ⟨rfl, rfl⟩, hheld⟩
  | append =>
      refine ⟨items, [], rfl, ?_, .inr ⟨rfl, rfl⟩, by rwa [List.append_nil]⟩
      rcases hheld with hheld | ⟨rfl, hheld | hheld⟩ <;> rw [hheld] <;> rfl

end Json

namespace Document

variable {s : Scheme} {d : Document} {K : Holder}

/-! ## The processor at a path -/

/-- The path of a site addresses its processor. -/
theorem processorAt?_of_draws (hs : s.Orderly) {τ : Site} (h : d.Draws s τ) :
    d.processorAt? τ.path = some (τ.path, τ.processor) := by
  have hr := h.resolve
  obtain ⟨K, hK, hτ⟩ := h
  rcases K.last_cases hτ with hl | ⟨p, hp, i, hk, hname, hpath⟩
  · exact processorAt?_of_last hr hl
  · have hne := (((hK.orderly hs).clause p hp hk)).1
    rw [hpath] at hr ⊢
    rw [processorAt?_elementAt hr, lastName?_of_last (last_child _ _), hname, Option.map_some]
    unfold processorOf
    split
    · rw [if_neg hne]
    · rfl

end Document

namespace Holder

variable {K : Holder}

/-- A null definition holds what an empty object does. -/
theorem sites_of_definitionFields {fields : Fields Json}
    (hf : definitionFields? K.definition = some fields) :
    K.sites = (K.holding (.obj fields)).sites ∧ Card.Alike K.definition (.obj fields) := by
  obtain ⟨path, reading, definition⟩ := K
  cases definition with
  | null =>
      obtain rfl := Option.some.inj hf
      exact ⟨by simp [sites, holding, sitesUnder], rfl, rfl⟩
  | obj fields' =>
      obtain rfl := Option.some.inj hf
      exact ⟨rfl, rfl, rfl⟩
  | bool | num | str | arr => contradiction

/-- All sites but those in the last element of an array stay when it goes. -/
theorem retarget_of_mem_last {s : Scheme} (ho : K.reading.Orderly s) {p : StepsProperty}
    (hp : p ∈ K.reading.properties) (hk : p.kind ≠ .singleClause) {fields : Fields Json}
    {xs : List Json} {x : Json} (hv : Fields.get? p.name fields = some (.arr (xs ++ [x])))
    {μ : Site} (hμ : μ ∈ (K.holding (.obj fields)).sites)
    (hne : ¬ ((K.path.child p.name).elementAt xs.length).segments <+: μ.path.segments) :
    μ.path.retarget (K.path.child p.name) xs.length = μ.path := by
  obtain ⟨front, back, hsites, hapart⟩ := K.exists_sites_around ho hp fields
  have hbeside (h : μ ∈ front ++ back) : μ.path.retarget (K.path.child p.name) xs.length = μ.path :=
    retarget_of_not_below (hapart μ h).1
  rw [hsites fields fun _ _ => rfl, sitesUnder_arr hp hk hv, Site.ofElements_append,
    Nat.zero_add] at hμ
  simp only [List.mem_append] at hμ hbeside
  rcases hμ with hfront | (hfirst | hlast) | hback
  · exact hbeside (.inl hfront)
  · exact Site.retarget_of_mem_ofElements hfirst (by omega)
  · rw [Site.ofElements, Site.ofElements, List.append_nil] at hlast
    exact absurd (StepsProperty.prefix_of_mem_reading hlast) hne
  · exact hbeside (.inr hback)

/-- No steps are drawn where nothing, or null, is stored. -/
theorem sitesUnder_of_absent {p : StepsProperty} (hp : p ∈ K.reading.properties)
    (hk : p.kind ≠ .singleClause) {fields : Fields Json}
    (h : Fields.get? p.name fields = none ∨ Fields.get? p.name fields = some .null) :
    K.sitesUnder fields p = [] := by
  obtain ⟨ps, hr⟩ := exists_declared hp hk
  rcases h with h | h <;> rw [sitesUnder, h]
  · rfl
  · rw [hr]
    rfl

end Holder

namespace Document

variable {s : Scheme} {d : Document} {K : Holder}

/-- The document before an insertion is the one after it less the new element. -/
theorem Holds.entries_of_inserted (hs : s.Orderly) (hK : d.Holds s K)
    (hp : ⟨"steps", .branch⟩ ∈ K.reading.properties) {value : Json} {mode : ChildMode}
    {fields : Fields Json} {new : Json} (hr : d.resolve K.path = some K.definition)
    (hf : definitionFields? K.definition = some fields)
    (hw : stored? ⟨"steps", .branch⟩ value mode (Fields.get? "steps" fields) = some new) :
    let steps := K.path.child "steps"
    let position := mode.position (d.resolve steps)
    let d' := d.writing K.path (.obj (Fields.put "steps" new fields))
    (Graph.ofDocument s d).entries =
        (Entry.without (steps.elementAt position) (Graph.ofDocument s d').entries).map
          (Entry.relocate (mode.closing steps)) ∧
      ∀ τ ∈ Site.ofStep (steps.elementAt position) value,
        ∃ e ∈ (Graph.ofDocument s d').entries, e.card = τ.card s := by
  intro steps position d'
  have ho := hK.orderly hs
  have hk : (⟨"steps", .branch⟩ : StepsProperty).kind ≠ .singleClause := by decide
  obtain ⟨xs, ys, rfl, hl, hmode, hold⟩ := exists_of_stored?_branch hw
  have hposition : position = xs.length := by
    rw [hl, ← resolve_child hr hf "steps"]
  obtain ⟨hsites, halike⟩ := K.sites_of_definitionFields hf
  let fields' : Fields Json := Fields.put "steps" (.arr (xs ++ value :: ys)) fields
  have haccepts : K.Accepts (.obj fields') := K.accepts_put ho hp halike _
  have hnew : Fields.get? "steps" fields' = some (.arr (xs ++ value :: ys)) :=
    Fields.get?_put_self "steps" _ fields
  have hunder : K.sitesUnder fields ⟨"steps", .branch⟩ =
      Site.ofElements Site.ofStep steps 0 (xs ++ ys) := by
    rcases hold with hold | ⟨hnil, hold⟩
    · exact K.sitesUnder_arr hp hk hold
    · rw [hnil]
      exact K.sitesUnder_of_absent hp hk hold
  have hloses := K.loses_element ho hp hk hnew
    (fun key hne => (Fields.get?_put_of_ne (Ne.symm hne) _ fields).symm) hunder
  rw [← hsites] at hloses
  have hclosing : Loses (mode.closing steps) (steps.elementAt xs.length)
      (Site.ofStep (steps.elementAt xs.length) value) (K.holding (.obj fields')).sites K.sites := by
    rcases hmode with ⟨rfl, rfl⟩ | ⟨rfl, rfl⟩
    · exact hloses
    · exact hloses.of_stay fun μ hμ hne => K.retarget_of_mem_last ho hp hk hnew hμ hne
  have hstay (q : Path) (hq : ¬ steps.segments <+: q.segments) : mode.closing steps q = q := by
    cases mode with
    | first => exact retarget_of_not_below hq
    | append => rfl
  constructor
  · have hentries := hK.entries_eq_of_loses hs hr haccepts K.accepts_self
      (prefix_elementAt steps xs.length) hstay hclosing
    rw [writing_self hr] at hentries
    rw [hposition, hentries]
  · intro τ hτ
    rw [hposition] at hτ
    refine hK.exists_entry hs hr haccepts ?_
    rw [Holder.sites_holding_obj]
    refine List.mem_flatMap.2 ⟨_, hp, ?_⟩
    rw [K.sitesUnder_arr hp hk hnew]
    exact Site.mem_ofElements.2 ⟨xs.length, value, by simp, by rwa [Nat.zero_add]⟩

/-- What is stored at the path of a holder is its definition. -/
theorem Holds.definition_of_resolve (hK : d.Holds s K) {definition : Json}
    (hr : d.resolve K.path = some definition) : K.definition = definition := by
  cases hK with
  | root =>
      rw [holder, resolve_rootPath] at hr
      rw [holder, hr]
      rfl
  | @under K σ hK hσ =>
      have hdraws : d.Draws s σ := ⟨K, hK, hσ⟩
      exact Option.some.inj (hdraws.resolve.symm.trans hr)

end Document

/-! ## Nodes and the paths that address them -/

theorem EntityKind.ofRootSegment_eq {segment : String} (h : ofRootSegment segment ≠ .unknown) :
    segment = (ofRootSegment segment).name := by
  unfold ofRootSegment at h ⊢
  cases hf : all.find? fun kind => kind.rootSegment? == some segment with
  | none =>
      rw [hf] at h
      exact absurd rfl h
  | some kind =>
      have hk : kind.rootSegment? = some segment := by simpa using List.find?_some hf
      rw [Option.getD_some]
      cases kind <;> first | exact (Option.some.inj hk).symm | contradiction

/-- At a root of a known kind children are inserted under `steps` when they are drawn there. -/
theorem Document.steps_holder {d : Document} (hk : d.kind ≠ .unknown) {declared : StepsProperty}
    (h : Context.builtin.catalog.stepsProperty? d.root "steps" = some declared) :
    declared ∈ (d.holder Context.builtin.scheme).reading.properties := by
  have hroot : d.root = d.kind.name := EntityKind.ofRootSegment_eq hk
  obtain ⟨rfl, -⟩ := Context.steps_builtin h
  have hnone (name : String) (hn : Context.builtin.catalog.stepsProperty? name "steps" = none)
      (hd : d.root = name) : False := by
    rw [hd, hn] at h
    contradiction
  simp only [holder, rootReading, rootProperties]
  cases hkind : d.kind <;> rw [hkind] at hroot
  case unknown => exact absurd hkind hk
  case intercept | interceptFrom | interceptSendToEndpoint | onException | onCompletion =>
    simp [Reading.properties, EntityKind.hasRootSteps]
  all_goals exact (hnone _ (by decide +kernel) hroot).elim

namespace Graph

variable {d : Document} {n : Node} {i : Nat}

/-- The first node is the root. -/
theorem card_of_root {s : Scheme} (hn : (ofDocument s d).get? 0 = some n) :
    n.card = .ofEntity s.catalog d.root d.kind d.definition? := by
  have he : (ofDocument s d).entries[0]? = some ((ofDocument s d).entryOf n) := by
    rw [entries, List.getElem?_map]
    exact congrArg _ hn
  rw [entries_ofDocument, List.getElem?_cons_zero] at he
  exact (congrArg Entry.card (Option.some.inj he)).symm

/-- A node whose path has several steps is not the root. -/
theorem ne_zero_of_path {s : Scheme} (hn : (ofDocument s d).get? i = some n) {above : Path}
    {step : Segment} (hp : n.card.path = above.join step) : i ≠ 0 := by
  rintro rfl
  have hroot : d.isRootPath n.card.path = true := by
    rw [card_of_root hn]
    exact beq_self_eq_true _
  rw [hp, Document.isRootPath_join] at hroot
  contradiction

/-- A node whose path ends in a key, behind other steps, shows the step of that name. -/
theorem exists_draws_of_child {s : Scheme} (hn : (ofDocument s d).get? i = some n)
    {above : Path} {key : String} (hp : n.card.path = above.child key) :
    ∃ τ, d.Draws s τ ∧ n.card = τ.card s ∧ τ.path = above.child key ∧ τ.processor = key := by
  obtain ⟨τ, hτ, hcard⟩ := exists_draws hn (ne_zero_of_path hn hp)
  have hpath : τ.path = above.child key := by rw [← hp, hcard]; rfl
  refine ⟨τ, hτ, hcard, hpath, ?_⟩
  obtain ⟨K, -, hmem⟩ := hτ
  rcases K.last_cases hmem with hlast | ⟨q, -, j, -, -, hq⟩
  · rw [hpath, last_child] at hlast
    exact (Segment.name.inj hlast).symm
  · have hlast := congrArg last (hq.symm.trans hpath)
    rw [last_child, last_elementAt] at hlast
    contradiction

/-- The path of a node addresses its processor. -/
theorem processorAt?_of_node {s : Scheme} (hs : s.Orderly)
    (hn : (ofDocument s d).get? i = some n) {value : Json}
    (hr : d.resolve n.card.path = some value) :
    d.processorAt? n.card.path = some (n.card.path, n.card.processor) := by
  by_cases hi : i = 0
  · subst hi
    rw [card_of_root hn] at hr ⊢
    exact Document.processorAt?_of_last hr rfl
  · obtain ⟨τ, hτ, hcard⟩ := exists_draws hn hi
    rw [hcard]
    exact Document.processorAt?_of_draws hs hτ

/-- The path of a branch's element addresses the step that is drawn from it, or no processor
that there is. -/
theorem processorAt?_of_element {s : Scheme} (hn : (ofDocument s d).get? i = some n)
    {array : Path} {k : Nat} {key : String}
    (ha : array.last = .name "steps") (hp : n.card.path = (array.elementAt k).child key)
    {path : Path} {processor : String}
    (h : d.processorAt? (array.elementAt k) = some (path, processor)) :
    path = n.card.path ∧ processor = n.card.processor ∨ processor = "steps" := by
  obtain ⟨τ, hτ, hcard, hpath, hkey⟩ := exists_draws_of_child hn hp
  have hprocessor : n.card.processor = τ.processor := by rw [hcard]; rfl
  rcases Document.processorAt?_cases h with ⟨-, hname, -⟩ | ⟨rfl, -, definition, helement⟩
  · rw [lastName?_elementAt, lastName?_of_last ha] at hname
    exact .inr (Option.some.inj hname).symm
  · -- the one key of the element is the one that the path of the node ends in
    have hr := hτ.resolve
    rw [hpath] at hr
    obtain ⟨rfl, -⟩ := Document.resolve_child_stepHolder helement hr
    exact .inl ⟨hp.symm, by rw [hprocessor, hkey]⟩

/-- A node whose processor takes children under `steps` holds the branch they are drawn in. -/
theorem exists_steps_holder (hn : (ofDocument Context.builtin.scheme d).get? i = some n)
    (hroot : i ≠ 0 ∨ d.kind ≠ .unknown) {declared : StepsProperty}
    (h : Context.builtin.catalog.stepsProperty? n.card.processor "steps" = some declared) :
    ∃ K, d.Holds Context.builtin.scheme K ∧ K.path = n.card.path ∧
      declared ∈ K.reading.properties := by
  by_cases hi : i = 0
  · subst hi
    rw [card_of_root hn] at h ⊢
    exact ⟨d.holder _, .root, rfl, d.steps_holder (hroot.resolve_left fun hne => hne rfl) h⟩
  · obtain ⟨τ, ⟨K, hK, hτ⟩, hcard⟩ := exists_draws hn hi
    rw [hcard] at h ⊢
    exact ⟨τ.holder _, hK.under hτ, rfl, (Context.steps_builtin h).2⟩

/-- **Insertion.** A step that is inserted below a drawn node is drawn, and hides nothing.
The path may be that of the node, or of the element of a branch that the node is the step
of; the root may be any that has a kind.  The entries before the insertion are those after
it less the entries of the new element; behind a new first step positions of its array are
one less again. -/
theorem entries_insertChild (hn : (ofDocument Context.builtin.scheme d).get? i = some n)
    (hroot : i ≠ 0 ∨ d.kind ≠ .unknown) {path : Path}
    (hpath : path = n.card.path ∨ ∃ (array : Path) (k : Nat) (key : String),
      array.last = .name "steps" ∧ n.card.path = (array.elementAt k).child key ∧
        path = array.elementAt k)
    {key : String} {value : Json} {mode : ChildMode}
    (happlied : (d.insertChild Context.builtin.catalog path "steps" (.obj [(key, value)])
      mode).2 = .done .applied) :
    let d' := (d.insertChild Context.builtin.catalog path "steps" (.obj [(key, value)]) mode).1
    let steps := n.card.path.child "steps"
    let position := mode.position (d.resolve steps)
    (ofDocument Context.builtin.scheme d).entries =
        (Entry.without (steps.elementAt position)
          (ofDocument Context.builtin.scheme d').entries).map
            (Entry.relocate (mode.closing steps)) ∧
      ∃ e ∈ (ofDocument Context.builtin.scheme d').entries,
        e.card = .ofStep Context.builtin.catalog ((steps.elementAt position).child key) key value := by
  intro d' steps position
  have hs := Context.orderly_builtin
  -- the path addresses the processor of the node
  obtain ⟨at', processor, hat⟩ : ∃ at' processor, d.processorAt? path = some (at', processor) := by
    cases hat : d.processorAt? path with
    | some found => exact ⟨found.1, found.2, rfl⟩
    | none => simp [Document.insertChild, hat] at happlied
  have hinsert : d.insertChild Context.builtin.catalog path "steps" (.obj [(key, value)]) mode =
      d.ofEdited (d.value.insertChild Context.builtin.catalog at' processor "steps"
        (.obj [(key, value)]) mode) := by
    rw [Document.insertChild, hat]
  rw [hinsert] at happlied
  obtain ⟨target, declared, fields, new, htarget, hdeclared, hfields, hwith, hjson⟩ :=
    exists_of_insertChild_applied happlied
  have haddressed : at' = n.card.path ∧ processor = n.card.processor := by
    rcases hpath with rfl | ⟨array, k, name, ha, hp, rfl⟩
    · obtain ⟨stored, hr⟩ := Document.exists_resolve_of_processorAt? hat
      rw [processorAt?_of_node hs hn hr] at hat
      obtain ⟨rfl, rfl⟩ := Prod.mk.inj (Option.some.inj hat)
      exact ⟨rfl, rfl⟩
    · refine (processorAt?_of_element hn ha hp hat).resolve_right fun hsteps => ?_
      have hnone : Context.builtin.catalog.stepsProperty? "steps" "steps" = none := by
        decide +kernel
      rw [hsteps, hnone] at hdeclared
      contradiction
  obtain ⟨rfl, rfl⟩ := haddressed
  obtain ⟨rfl, -⟩ := Context.steps_builtin hdeclared
  -- its holder is where the child is drawn
  obtain ⟨K, hK, hKpath, hp⟩ : ∃ K, d.Holds Context.builtin.scheme K ∧ K.path = n.card.path ∧
      ⟨"steps", .branch⟩ ∈ K.reading.properties := exists_steps_holder hn hroot hdeclared
  rw [← hKpath] at htarget
  have hdefinition := hK.definition_of_resolve htarget
  have hd' : d' = d.writing n.card.path (.obj (Fields.put "steps" new fields)) := by
    simp only [d', hinsert, hjson]
    rfl
  rw [← hdefinition] at htarget hfields
  obtain ⟨hentries, hdrawn⟩ := hK.entries_of_inserted hs hp htarget hfields hwith
  rw [hKpath, ← hd'] at hentries hdrawn
  exact ⟨hentries, hdrawn ⟨(steps.elementAt position).child key, key, value⟩ List.mem_cons_self⟩

/-- A first step that is inserted below the step of an array element, by the path of the
element. -/
theorem entries_insertChild_filter :
    let filter : Json := .obj [("filter", .obj [("steps", .arr [.obj [("log", .obj [])]])])]
    let d : Document :=
      ⟨.obj [("onException", .obj [("steps", .arr [filter])])], "onException"⟩
    let element := (d.rootPath.child "steps").elementAt 0
    let steps := (element.child "filter").child "steps"
    let edited := d.insertChild Context.builtin.catalog element "steps" (.obj [("stop", .obj [])]) .first
    edited.2 = .done .applied ∧
      (ofDocument Context.builtin.scheme d).entries =
        (Entry.without (steps.elementAt 0) (ofDocument Context.builtin.scheme edited.1).entries).map
          (Entry.relocate (·.retarget steps 0)) ∧
      ∃ e ∈ (ofDocument Context.builtin.scheme edited.1).entries,
        e.card.path = (steps.elementAt 0).child "stop" := by
  intro filter d element steps edited
  obtain ⟨n, hn⟩ : ∃ n, (ofDocument Context.builtin.scheme d).get? 1 = some n :=
    Option.isSome_iff_exists.1 (by decide +kernel)
  have hpath : n.card.path = element.child "filter" := by
    have h : ((ofDocument Context.builtin.scheme d).get? 1).map (fun n => n.card.path) =
        some (element.child "filter") := by decide +kernel
    rw [hn] at h
    exact Option.some.inj h
  have happlied : edited.2 = .done .applied := by decide +kernel
  obtain ⟨hentries, e, he, hcard⟩ := entries_insertChild hn (.inl (by decide))
    (.inr ⟨d.rootPath.child "steps", 0, "filter", by decide, hpath, rfl⟩) happlied
  rw [hpath] at hentries hcard
  exact ⟨happlied, hentries, e, he, congrArg Card.path hcard⟩

/-- Below a root of no known kind nothing is drawn, though children can be inserted there;
and a child that is inserted beside the name of a clause, by the path of the element, hides
the clause with all that was drawn below it. -/
theorem not_entries_insertChild :
    (¬ ∀ (d : Document) (n : Node) (i : Nat) (key : String) (value : Json) (mode : ChildMode),
      (ofDocument Context.builtin.scheme d).get? i = some n →
      (d.insertChild Context.builtin.catalog n.card.path "steps" (.obj [(key, value)]) mode).2 =
        .done .applied →
      ∃ e ∈ (ofDocument Context.builtin.scheme (d.insertChild Context.builtin.catalog n.card.path
        "steps" (.obj [(key, value)]) mode).1).entries, e.card.processor = key) ∧
    ¬ ∀ (d : Document) (n : Node) (i : Nat) (element : Path) (v : Json) (mode : ChildMode),
      (ofDocument Context.builtin.scheme d).get? i = some n →
      n.card.path.element? = some element →
      (d.insertChild Context.builtin.catalog element "steps" v mode).2 = .done .applied →
      (ofDocument Context.builtin.scheme d).size ≤ (ofDocument Context.builtin.scheme
        (d.insertChild Context.builtin.catalog element "steps" v mode).1).size := by
  constructor
  · intro h
    let d : Document := ⟨.obj [("filter", .obj [])], "filter"⟩
    obtain ⟨n, hn⟩ : ∃ n, (ofDocument Context.builtin.scheme d).get? 0 = some n :=
      Option.isSome_iff_exists.1 (by decide +kernel)
    have hpath : n.card.path = d.rootPath := congrArg Card.path (card_of_root hn)
    obtain ⟨e, he, hname⟩ := h d n 0 "log" (.obj []) .append hn
      (by rw [hpath]; decide +kernel)
    rw [hpath] at he
    have hall : ∀ e ∈ (ofDocument Context.builtin.scheme (d.insertChild Context.builtin.catalog
        d.rootPath "steps" (.obj [("log", .obj [])]) .append).1).entries,
        e.card.processor ≠ "log" := by decide +kernel
    exact hall e he hname
  · intro h
    let steps : Json := .obj [("steps", .arr [.obj [("log", .obj [])], .obj [("stop", .obj [])]])]
    let d : Document := ⟨.obj [("routeConfiguration", .obj [("intercept",
      .arr [.obj [("intercept", steps)]])])], "routeConfiguration"⟩
    let element := (d.rootPath.child "intercept").elementAt 0
    obtain ⟨n, hn⟩ : ∃ n, (ofDocument Context.builtin.scheme d).get? 1 = some n :=
      Option.isSome_iff_exists.1 (by decide +kernel)
    have helement : n.card.path.element? = some element := by
      have h : ((ofDocument Context.builtin.scheme d).get? 1).bind (fun n => n.card.path.element?) =
          some element := by decide +kernel
      rwa [hn] at h
    have hlt : (ofDocument Context.builtin.scheme (d.insertChild Context.builtin.catalog element
        "steps" (.obj [("to", .obj [])]) .append).1).size <
          (ofDocument Context.builtin.scheme d).size := by decide +kernel
    exact Nat.not_le_of_lt hlt
      (h d n 1 element (.obj [("to", .obj [])]) .append hn helement (by decide +kernel))

end Graph

end FlowTree
