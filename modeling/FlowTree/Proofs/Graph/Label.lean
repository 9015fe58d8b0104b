import FlowTree.Editor
import FlowTree.Proofs.Graph.Redraw

/-!
# FlowTree.Proofs.Graph.Label

How nodes are labelled.

A definition asks for a label by its description or, without one, by its id, and a field that
is no string asks for nothing.  The label of the flow follows this rule.  The labels of nodes
are made in two steps, the field first and the string in it second: a description that is no
string is taken all the same, and hides the id.

* `Card.askedLabel?`, `Card.HidesId` — the label that a definition asks for, and when its id
  is hidden;
* `Card.ownLabel?_eq_askedLabel?` — a definition has the label that it asks for unless its id
  is hidden;
* `Document.label_eq` — the flow has the label that its definition asks for;
* `Graph.labels_asked_iff` — the nodes that have the label that their definition asks for.
-/

namespace FlowTree

/-! ## Labels of definitions -/

/-- The string under a key; a field that holds anything else counts as absent. -/
def Json.fieldText? (key : String) (definition : Json) : Option String :=
  (definition.field? key).bind text?

namespace Card

/-- The label that a definition asks for: its description, or else its id. -/
def askedLabel? (definition : Json) : Option String :=
  (definition.fieldText? "description").or (definition.fieldText? "id")

/-- The name that a node has without a label: that of its component, or else that of its
processor. -/
def name (c : Card) : String := c.component.getD c.processor

/-- The label that a definition asks for its node. -/
def askedLabel (c : Card) (definition : Json) : String := (askedLabel? definition).getD c.name

/-- The id of a definition is a string, and the description is there but is none. -/
structure HidesId (definition : Json) (id : String) : Prop where
  description : ∃ value, definition.field? "description" = some value ∧ value.text? = none
  id : definition.fieldText? "id" = some id

variable {definition : Json}

/-- A definition with a hidden id has no label of its own. -/
theorem HidesId.ownLabel?_eq {id : String} (h : HidesId definition id) :
    ownLabel? definition = none := by
  obtain ⟨value, hv, ht⟩ := h.description
  rw [ownLabel?, hv, Option.some_or, Option.bind_some, ht]

/-- It asks for the id. -/
theorem HidesId.askedLabel?_eq {id : String} (h : HidesId definition id) :
    askedLabel? definition = some id := by
  obtain ⟨value, hv, ht⟩ := h.description
  rw [askedLabel?, Json.fieldText?, hv, Option.bind_some, ht, Option.none_or, h.id]

/-- Any other definition has the label that it asks for. -/
theorem ownLabel?_eq_askedLabel? (h : ∀ id, ¬ HidesId definition id) :
    ownLabel? definition = askedLabel? definition := by
  rw [ownLabel?, askedLabel?]
  cases hd : definition.field? "description" with
  | none => simp [Json.fieldText?, hd]
  | some value =>
      have hown : definition.fieldText? "description" = value.text? := by
        rw [Json.fieldText?, hd, Option.bind_some]
      rw [hown, Option.some_or, Option.bind_some]
      cases ht : value.text? with
      | some text => rfl
      | none =>
          cases hid : definition.fieldText? "id" with
          | none => rfl
          | some id => exact absurd ⟨⟨value, hd, ht⟩, hid⟩ (h id)

/-- Under a name, a definition has the label that it asks for exactly when no other id is
hidden. -/
theorem getD_ownLabel?_iff (definition : Json) (name : String) :
    (ownLabel? definition).getD name = (askedLabel? definition).getD name ↔
      ∀ id, HidesId definition id → id = name := by
  by_cases h : ∃ id, HidesId definition id
  · obtain ⟨id, hid⟩ := h
    rw [hid.ownLabel?_eq, hid.askedLabel?_eq, Option.getD_none, Option.getD_some]
    constructor
    · intro heq other hother
      exact (Option.some.inj (hother.id.symm.trans hid.id)).trans heq.symm
    · exact fun hall => (hall id hid).symm
  · have hnone : ∀ id, ¬ HidesId definition id := fun id hid => h ⟨id, hid⟩
    rw [ownLabel?_eq_askedLabel? hnone]
    exact iff_of_true rfl fun id hid => absurd hid (hnone id)

end Card

/-- The flow has the label that its definition asks for. -/
theorem Document.label_eq (d : Document) :
    d.label = (d.definition?.bind Card.askedLabel?).getD d.root := by
  rw [label, id?]
  cases d.definition? <;> rfl

/-! ## Labels of nodes -/

namespace Graph

theorem get?_root (s : Scheme) (d : Document) :
    ∃ root, (ofDocument s d).get? 0 = some root ∧
      root.card = .ofEntity s.catalog d.root d.kind d.definition? := by
  rw [ofDocument_eq]
  exact ⟨_, rfl, rfl⟩

/-- **Labels.** The root has the label of the flow, and every other node the label that its
definition asks for - the description, the id, the component or else the processor - unless a
description that is no string hides an id.  Then the node is labelled by its name, whatever
the id. -/
theorem labels_asked_iff (s : Scheme) (d : Document) :
    (∃ root, (ofDocument s d).get? 0 = some root ∧
      (root.card.label = d.label ↔
        ∀ definition, d.definition? = some definition →
          ∀ id, Card.HidesId definition id → id = d.root)) ∧
    ∀ i n, (ofDocument s d).get? i = some n → i ≠ 0 →
      ∃ definition, d.resolve n.card.path = some definition ∧
        (n.card.label = n.card.askedLabel definition ↔
          ∀ id, Card.HidesId definition id → id = n.card.name) ∧
        ∀ id, Card.HidesId definition id → n.card.label = n.card.name := by
  constructor
  case left =>
    obtain ⟨root, hroot, hcard⟩ := get?_root s d
    refine ⟨root, hroot, ?_⟩
    rw [hcard, d.label_eq, Card.ofEntity]
    cases d.definition? with
    | none => simp
    | some definition => simp [Card.getD_ownLabel?_iff]
  case right =>
    intro i n hn hi
    obtain ⟨τ, hτ, hcard⟩ := exists_draws hn hi
    rw [hcard]
    refine ⟨τ.definition, hτ.resolve, Card.getD_ownLabel?_iff _ _, fun id hid => ?_⟩
    exact congrArg (Option.getD · _) hid.ownLabel?_eq

/-- The root and a step have descriptions that are no strings: both are labelled by their
names and not by their ids.  The other step has its id. -/
theorem labels_asked_iff_filter :
    let s := Context.builtin.scheme
    let filter : Json := .obj [("id", .str "p"), ("description", .bool false)]
    let publish : Json := .obj [("uri", .str "kafka:orders"), ("id", .str "publish")]
    let steps : Json := .arr [.obj [("filter", filter)], .obj [("to", publish)]]
    let d : Document := ⟨.obj [("intercept",
      .obj [("description", .null), ("id", .str "own"), ("steps", steps)])], "intercept"⟩
    (∃ root, (ofDocument s d).get? 0 = some root ∧ root.card.label ≠ d.label) ∧
      (∃ n, (ofDocument s d).get? 1 = some n ∧ d.resolve n.card.path = some filter ∧
        n.card.label ≠ n.card.askedLabel filter ∧ n.card.label = "filter") ∧
      ∃ n, (ofDocument s d).get? 2 = some n ∧ d.resolve n.card.path = some publish ∧
        n.card.label = n.card.askedLabel publish := by
  intro s filter publish steps d
  obtain ⟨⟨root, hroot, hlabel⟩, hnodes⟩ := labels_asked_iff s d
  refine ⟨⟨root, hroot, fun heq => ?root⟩, ?filter, ?other⟩
  case root =>
    exact absurd (hlabel.1 heq _ rfl "own" ⟨⟨.null, rfl, rfl⟩, rfl⟩) (by decide)
  case filter =>
    obtain ⟨n, hn, hcard⟩ : ∃ n, (ofDocument s d).get? 1 = some n ∧
        (d.resolve n.card.path, n.card.name) = (some filter, "filter") :=
      Option.map_eq_some_iff.1 (by decide +kernel)
    obtain ⟨hfilter, hname⟩ := Prod.mk.inj hcard
    obtain ⟨definition, hdefinition, hasked, hhidden⟩ := hnodes 1 n hn (by decide)
    obtain rfl := Option.some.inj (hfilter.symm.trans hdefinition)
    have hid : Card.HidesId filter "p" := ⟨⟨.bool false, rfl, rfl⟩, rfl⟩
    refine ⟨n, hn, hfilter, fun heq => ?_, (hhidden "p" hid).trans hname⟩
    exact absurd ((hasked.1 heq "p" hid).trans hname) (by decide)
  case other =>
    obtain ⟨n, hn, hother⟩ : ∃ n, (ofDocument s d).get? 2 = some n ∧
        d.resolve n.card.path = some publish := Option.map_eq_some_iff.1 (by decide +kernel)
    obtain ⟨definition, hdefinition, hasked, -⟩ := hnodes 2 n hn (by decide)
    obtain rfl := Option.some.inj (hother.symm.trans hdefinition)
    refine ⟨n, hn, hother, hasked.2 fun id hid => ?_⟩
    obtain ⟨value, hvalue, -⟩ := hid.description
    contradiction

/-- With a number as description, neither the flow nor a step keeps its id as label. -/
theorem not_labels_asked :
    ¬ ∀ (c : Context) (d : Document),
      (∀ root, (ofDocument c.scheme d).get? 0 = some root → root.card.label = d.label) ∧
      ∀ i n definition, (ofDocument c.scheme d).get? i = some n → i ≠ 0 →
        d.resolve n.card.path = some definition →
          n.card.label = n.card.askedLabel definition := by
  intro h
  let definition : Json := .obj [("description", .num (.int 1)), ("id", .str "x")]
  obtain ⟨hroot, -⟩ := h .builtin ⟨.obj [("route", definition)], "route"⟩
  have hlabel := hroot _ rfl
  revert hlabel
  decide +kernel

end Graph

end FlowTree
