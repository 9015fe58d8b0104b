import FlowTree.Proofs.Document.Child
import FlowTree.Proofs.Graph.Insertion
import FlowTree.Proofs.Tree.OneNode

/-!
# FlowTree.Proofs.Editor.Offered

What is offered for a drawn node is carried out.

The lists of names that offers are made from know nothing of a document, and the edits
know nothing of names.  They meet in where a site can stand: under a key that is reached
by another key, or in an element of an array.  Elements take siblings, whatever they are,
and the names of all clauses that stand under a key are on the list of those that do not.

* `Document.Holds.stands` — where a site stands;
* `Document.Draws.replace_applied`, `Document.Draws.remove_applied` — a site can be
  replaced and removed wherever it stands;
* `Context.anchored_of_singleClause` — what stands under a key takes no siblings;
* `Graph.offers_carried_out` — every edit that is offered for a node is carried out.
-/

namespace FlowTree

open FlowTree.Json FlowTree.Path

/-! ## Edits that find something -/

namespace Json

/-- A child goes into a definition that is null or an object without anything else than
steps under its property. -/
theorem verdict_insertChild {doc definition : Json} {catalog : Catalog} {path : Path}
    {processor property : String} {declared : StepsProperty} {fields : Fields Json}
    (hr : doc.resolve path = some definition)
    (hd : catalog.stepsProperty? processor property = some declared)
    (hf : definitionFields? definition = some fields)
    (hs : ∀ value, Fields.get? declared.name fields = some value →
      value = .null ∨ ∃ items, value = .arr items) (value : Json) (mode : ChildMode) :
    (doc.insertChild catalog path processor property value mode).verdict = .done .applied := by
  rw [Catalog.name_of_stepsProperty? hd] at hs
  cases hstored : stored? declared value mode (Fields.get? property fields) with
  | some new =>
    rw [insertChild_of_stored? hr hd hf hstored]
    rfl
  | none =>
    obtain ⟨-, hnone⟩ := stored?_eq_none_iff.1 hstored
    obtain ⟨held, hheld, hnull, harr⟩ := children?_eq_none_iff.1 hnone
    rcases hs held hheld with rfl | ⟨items, rfl⟩
    · contradiction
    · exact absurd rfl (harr items)

end Json

/-! ## Where sites stand -/

namespace Document

/-- A site stands under its name, in an object that is reached by a key. -/
structure UnderKey (d : Document) (τ : Site) (above : Path) (fields : Fields Json) : Prop where
  reached : ∃ name, above.last = .name name
  resolve_above : d.resolve above = some (.obj fields)
  has : Fields.has τ.processor fields = true
  path_eq : τ.path = above.child τ.processor

/-- A site stands in an element of an array. -/
structure InElement (d : Document) (τ : Site) (p : StepsProperty) (owner : Path) (i : Nat)
    (item : Json) : Prop where
  resolve_element : d.resolve (owner.elementAt i) = some item
  reads : p.Reads (owner.elementAt i) item τ

variable {s : Scheme} {d : Document} {τ : Site}

/-- A site stands under a key, and then it is a clause of which there is one only, or in an
element of an array. -/
theorem Holds.stands (hs : s.Orderly) {K : Holder} (hK : d.Holds s K) (hτ : τ ∈ K.sites) :
    (∃ p ∈ K.reading.properties, p.kind = .singleClause ∧ τ.processor = p.name ∧
        ∃ above fields, d.UnderKey τ above fields) ∨
      ∃ p owner i item, d.InElement τ p owner i item := by
  have hr : d.resolve K.path = some K.definition :=
    hK.resolve_of_ne_nil (List.ne_nil_of_mem hτ)
  obtain ⟨fields, hd, p, hp, ⟨hk, hhas, hpath, hname⟩ | ⟨hk, items, i, item, hv, hi, hreads⟩⟩ :=
    K.place_cases hτ
  · refine .inl ⟨p, hp, hk, hname, K.path, fields, ?_⟩
    rw [hd] at hr
    exact {
      reached := hK.last_of_singleClause hs hp hk
      resolve_above := hr
      has := by rwa [hname]
      path_eq := by rwa [hname] }
  · have hsteps : d.resolve (K.path.child p.name) = some (.arr items) := by
      rw [resolve_child hr (by rw [hd]; rfl), hv]
    exact .inr ⟨p, K.path.child p.name, i, item,
      resolve_elementAt_eq_some_iff.2 ⟨items, hsteps, hi⟩, hreads⟩

/-! ## Edits of sites -/

section InElement

variable {p : StepsProperty} {owner : Path} {i : Nat} {item : Json}

/-- An element takes siblings, and can be replaced by a value. -/
theorem InElement.insertAdjacent_applied (h : d.InElement τ p owner i item) (value : Json)
    (mode : AdjacentMode) : (d.insertAdjacent τ.path value mode).2 = .done .applied := by
  obtain ⟨items, ha, hi⟩ := resolve_elementAt_eq_some_iff.1 h.resolve_element
  have hlt : i < items.length := (List.getElem?_eq_some_iff.1 hi).1
  rw [insertAdjacent, insertAdjacent_eq_applied h.reads.owningArray ha hlt]
  rfl

theorem InElement.replace_applied (h : d.InElement τ p owner i item) (value : Json) :
    (d.replace τ.path value).2 = .done .applied := by
  rw [replace, Json.replace_of_owningArray h.reads.owningArray]
  exact h.insertAdjacent_applied value .replace

theorem InElement.remove_applied (h : d.InElement τ p owner i item) :
    (d.remove τ.path).2 = .done .applied := by
  have hr := h.resolve_element
  cases h.reads with
  | step hk key value rest =>
    exact remove_child_elementAt_applied_iff.2 ⟨_, hr, by simp [Fields.has, Fields.get?_cons]⟩
  | wrapped hk value =>
    exact remove_child_elementAt_applied_iff.2 ⟨_, hr, by simp [Fields.has, Fields.get?_cons]⟩
  | bare hk item hi =>
    rw [remove, Json.remove_elementAt hr]
    rfl

end InElement

section UnderKey

variable {above : Path} {fields : Fields Json}

theorem UnderKey.replace_applied (h : d.UnderKey τ above fields)
    (hr : d.resolve τ.path = some τ.definition) (value : Json) :
    (d.replace τ.path value).2 = .done .applied := by
  obtain ⟨name, hname⟩ := h.reached
  have hnone : τ.path.owningArray = none := by
    rw [h.path_eq]
    exact owningArray_child_of_last hname τ.processor
  have hedit : d.value.editAt (some τ.path) (fun _ => some value) =
      .applied (overwrite τ.path.segments value d.value) := editAt_of_resolve hr rfl
  rw [replace, Json.replace, hnone, Option.isSome_none, if_neg Bool.false_ne_true, hedit]
  rfl

theorem UnderKey.remove_applied (h : d.UnderKey τ above fields) :
    (d.remove τ.path).2 = .done .applied := by
  obtain ⟨name, hname⟩ := h.reached
  rw [h.path_eq, remove, Json.remove_child hname h.resolve_above h.has]
  rfl

end UnderKey

/-- A site can be replaced, wherever it stands. -/
theorem Draws.replace_applied (hs : s.Orderly) (h : d.Draws s τ) (value : Json) :
    (d.replace τ.path value).2 = .done .applied := by
  have hr := h.resolve
  obtain ⟨K, hK, hτ⟩ := h
  cases hK.stands hs hτ with
  | inl hkey =>
    obtain ⟨-, -, -, -, above, fields, hkey⟩ := hkey
    exact hkey.replace_applied hr value
  | inr helement =>
    obtain ⟨p, owner, i, item, helement⟩ := helement
    exact helement.replace_applied value

/-- A site can be removed, wherever it stands. -/
theorem Draws.remove_applied (hs : s.Orderly) (h : d.Draws s τ) :
    (d.remove τ.path).2 = .done .applied := by
  obtain ⟨K, hK, hτ⟩ := h
  cases hK.stands hs hτ with
  | inl hkey =>
    obtain ⟨-, -, -, -, above, fields, hkey⟩ := hkey
    exact hkey.remove_applied
  | inr helement =>
    obtain ⟨p, owner, i, item, helement⟩ := helement
    exact helement.remove_applied

end Document

/-! ## The names that offers are made from -/

namespace Context

/-- What the built-in catalog and mappers say of a processor is said of one they know. -/
theorem known_of_mem_properties {name : String} {p : StepsProperty}
    (h : p ∈ builtin.scheme.properties name ++ builtin.catalog.stepsProperties name) :
    name ∈ known := by
  by_cases hk : name ∈ known
  · exact hk
  · obtain ⟨hm, hc⟩ := properties_of_not_known hk
    have hp : builtin.scheme.properties name = [] := by
      rw [Scheme.properties, scheme, hm]
      exact hc
    rw [hp, hc] at h
    contradiction

/-- A clause of which there is one only takes no siblings. -/
theorem anchored_of_singleClause {name : String} {p : StepsProperty}
    (h : p ∈ builtin.scheme.properties name ++ builtin.catalog.stepsProperties name)
    (hk : p.kind = .singleClause) : p.name ∈ anchored := by
  have hall : ∀ name ∈ known,
      ∀ p ∈ builtin.scheme.properties name ++ builtin.catalog.stepsProperties name,
        p.kind = .singleClause → p.name ∈ anchored := by decide +kernel
  exact hall name (known_of_mem_properties h) p h hk

/-- A processor that can have children takes them under `steps`. -/
theorem stepsProperty?_of_branch {name : String} {p : StepsProperty}
    (h : p ∈ builtin.catalog.stepsProperties name) (hk : p.kind = .branch) :
    builtin.catalog.stepsProperty? name "steps" = some ⟨"steps", .branch⟩ := by
  have hall : ∀ name ∈ known, ∀ p ∈ builtin.catalog.stepsProperties name, p.kind = .branch →
      builtin.catalog.stepsProperty? name "steps" = some ⟨"steps", .branch⟩ := by
    decide +kernel
  exact hall name (known_of_mem_properties (List.mem_append_right _ h)) p h hk

end Context

/-- In a document that is drawn in the built-in way, what takes siblings is an element. -/
theorem Document.Draws.inElement_of_not_anchored {d : Document} {τ : Site}
    (h : d.Draws Context.builtin.scheme τ) (ha : τ.processor ∉ anchored) :
    ∃ p owner i item, d.InElement τ p owner i item := by
  obtain ⟨K, hK, hτ⟩ := h
  refine (hK.stands Context.orderly_builtin hτ).resolve_left ?_
  rintro ⟨p, hp, hk, hname, -⟩
  rw [hname] at ha
  cases hK with
  | under hK hσ =>
    exact ha (Context.anchored_of_singleClause (List.mem_append_left _ hp) hk)
  | root =>
    simp only [Document.holder, Document.rootReading] at hp
    split at hp
    · rw [List.mem_singleton.1 hp] at ha
      exact absurd (by decide) ha
    · simp only [Document.rootProperties] at hp
      split at hp
      · exact ha (Context.anchored_of_singleClause (List.mem_append_right _ hp) hk)
      · split at hp
        · rw [List.mem_singleton.1 hp] at hk
          contradiction
        · contradiction

/-! ## Offers -/

/-- A definition that steps can be added to: it has none yet, or they are in an array. -/
def TakesSteps (definition : Json) : Prop :=
  definition = .null ∨ ∃ fields, definition = .obj fields ∧
    ∀ value, Fields.get? "steps" fields = some value → value = .null ∨ ∃ items, value = .arr items

/-- Every edit that is offered at a path is carried out there, whatever the value. -/
structure Offers.CarriedOut (o : Offers) (catalog : Catalog) (d : Document) (path : Path) :
    Prop where
  previousStep : o.previousStep = true → ∀ value,
    (d.insertAdjacent path value .before).2 = .done .applied
  nextStep : o.nextStep = true → ∀ value,
    (d.insertAdjacent path value .after).2 = .done .applied
  replaceStep : o.replaceStep = true → ∀ value, (d.replace path value).2 = .done .applied
  removeStep : o.removeStep = true → (d.remove path).2 = .done .applied
  children : o.children = true →
    ∀ definition, d.resolve path = some definition → TakesSteps definition →
      ∀ value mode, (d.insertChild catalog path "steps" value mode).2 = .done .applied

/-- What is offered for a processor is carried out at every site of it. -/
theorem Offers.carriedOut_of_draws {d : Document} {τ : Site}
    (h : d.Draws Context.builtin.scheme τ) :
    (Offers.of Context.builtin.catalog τ.processor .interior).CarriedOut
      Context.builtin.catalog d τ.path := by
  have hs := Context.orderly_builtin
  have hsiblings (ho : (!anchored.contains τ.processor) = true) (value : Json)
      (mode : AdjacentMode) : (d.insertAdjacent τ.path value mode).2 = .done .applied := by
    have ha : τ.processor ∉ anchored := by simpa using ho
    obtain ⟨p, owner, i, item, helement⟩ := h.inElement_of_not_anchored ha
    exact helement.insertAdjacent_applied value mode
  constructor
  case previousStep => exact fun ho value => hsiblings ho value .before
  case nextStep => exact fun ho value => hsiblings ho value .after
  case replaceStep => exact fun _ value => h.replace_applied hs value
  case removeStep => exact fun _ => h.remove_applied hs
  case children =>
    intro ho definition hr hsteps value mode
    have hbranch : ∃ p ∈ Context.builtin.catalog.stepsProperties τ.processor,
        p.kind = .branch := by simpa [Offers.of] using ho
    obtain ⟨p, hp, hk⟩ := hbranch
    have hdeclared := Context.stepsProperty?_of_branch hp hk
    have haddressed := Document.processorAt?_of_draws hs h
    rw [Document.insertChild, haddressed]
    cases hsteps with
    | inl hnull =>
      rw [hnull] at hr
      exact verdict_insertChild hr hdeclared rfl (fun _ hv => by contradiction) value mode
    | inr hobj =>
      obtain ⟨fields, hobj, harr⟩ := hobj
      rw [hobj] at hr
      exact verdict_insertChild hr hdeclared rfl harr value mode

namespace Graph

variable {d : Document} {n : Node} {i : Nat}

/-- **Offers.** Every edit that is offered for a drawn node is carried out, on every document
and for every value: a step before or behind it, another one in its place, its removal, and a
child when its steps are in an array or not there yet. -/
theorem offers_carried_out (hn : (ofDocument Context.builtin.scheme d).get? i = some n)
    (hi : i ≠ 0) :
    ∃ o definition, Editor.offers? ⟨.builtin, d⟩ n.card.path = some o ∧
      d.resolve n.card.path = some definition ∧
      o.CarriedOut Context.builtin.catalog d n.card.path := by
  obtain ⟨τ, hτ, hcard⟩ := exists_draws hn hi
  have haddressed := Document.processorAt?_of_draws Context.orderly_builtin hτ
  have hoffers : Editor.offers? ⟨.builtin, d⟩ τ.path =
      some (.of Context.builtin.catalog τ.processor .interior) := by
    rw [Editor.offers?]
    simp only [hτ.isRootPath_eq_false, Bool.false_eq_true, if_false, haddressed]
    rfl
  rw [hcard]
  exact ⟨_, τ.definition, hoffers, hτ.resolve, Offers.carriedOut_of_draws hτ⟩

/-- A step that has no steps yet is offered, and takes, every edit but those of a flow. -/
theorem offers_carried_out_filter :
    let d : Document :=
      ⟨.obj [("onException", .obj [("steps", .arr [.obj [("filter", .obj [])]])])], "onException"⟩
    let path := ((d.rootPath.child "steps").elementAt 0).child "filter"
    (∃ o, Editor.offers? ⟨.builtin, d⟩ path = some o ∧ o.previousStep = true ∧
      o.nextStep = true ∧ o.replaceStep = true ∧ o.removeStep = true ∧ o.children = true) ∧
      (∀ value mode, mode ≠ .replace → (d.insertAdjacent path value mode).2 = .done .applied) ∧
      (∀ value, (d.replace path value).2 = .done .applied) ∧
      (d.remove path).2 = .done .applied ∧
      ∀ value mode, (d.insertChild Context.builtin.catalog path "steps" value mode).2 =
        .done .applied := by
  intro d path
  obtain ⟨n, hn, hpath⟩ : ∃ n, (ofDocument Context.builtin.scheme d).get? 1 = some n ∧
      n.card.path = path := Option.map_eq_some_iff.1 (by decide +kernel)
  obtain ⟨o, definition, ho, hr, hout⟩ := offers_carried_out hn (by decide)
  rw [hpath] at ho hr hout
  have hall : Editor.offers? ⟨.builtin, d⟩ path = some
      { previousStep := true, nextStep := true, children := true, specialChildren := false
        replaceStep := true, removeStep := true, removeFlow := false, disable := true } := by
    decide +kernel
  obtain rfl := Option.some.inj (ho.symm.trans hall)
  have hdefinition : definition = .obj [] :=
    Option.some.inj (hr.symm.trans (by decide +kernel))
  have htakes : TakesSteps definition := by
    rw [hdefinition]
    exact .inr ⟨[], rfl, fun _ hv => by contradiction⟩
  refine ⟨⟨_, ho, rfl, rfl, rfl, rfl, rfl⟩, ?_, hout.replaceStep rfl, hout.removeStep rfl,
    hout.children rfl definition hr htakes⟩
  intro value mode hmode
  cases mode with
  | before => exact hout.previousStep rfl value
  | after => exact hout.nextStep rfl value
  | replace => contradiction

end Graph

end FlowTree
