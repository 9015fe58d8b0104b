import FlowTree.Proofs.Document.Stale
import FlowTree.Proofs.Editor.Offered

/-!
# FlowTree.Proofs.Editor.RootOffers

What is offered at the root of a document, and what the edits say there.

The edits see a path of one step and refuse it, whatever the root is called.  The offers see
a name: most kinds of entities have rules of their own and `route` is on every list of what
is not offered, but the root of an unknown kind is a processor that allows everything.

* `Document.insertAdjacent_rootPath`, `Document.remove_rootPath` — the edits that are refused
  at every root;
* `Document.previousStep_rootOffers_iff`, `Document.removeStep_rootOffers_iff` — the roots at
  which they are offered all the same;
* `Document.stepsProperty?_of_children_rootOffers` — where children are offered the catalog
  has a place for them;
* `Editor.rootOffers_kept_iff` — the roots at which nothing is offered that is refused.
-/

namespace FlowTree

open FlowTree.Json FlowTree.Path

/-- Kinds with rules of their own offer no siblings and no removal of a step, and children
only where the root has a branch of steps. -/
theorem EntityKind.rootOffers?_cases {kind : EntityKind} {o : Offers}
    (h : kind.rootOffers? = some o) :
    o.previousStep = false ∧ o.nextStep = false ∧ o.removeStep = false ∧
      (o.children = true → kind.hasRootSteps = true) := by
  cases kind with
  | route | unknown => contradiction
  | routeConfiguration | errorHandler | restConfiguration | rest =>
      obtain rfl := Option.some.inj h
      exact ⟨rfl, rfl, rfl, fun hc => by contradiction⟩
  | intercept | interceptFrom | interceptSendToEndpoint | onException | onCompletion =>
      obtain rfl := Option.some.inj h
      exact ⟨rfl, rfl, rfl, fun _ => rfl⟩

theorem EntityKind.rootOffers?_eq_none_iff {kind : EntityKind} :
    kind.rootOffers? = none ↔ kind = .route ∨ kind = .unknown := by
  cases kind <;> simp [rootOffers?]

namespace Document

/-! ## What is refused -/

/-- The root has no place beside it. -/
theorem insertAdjacent_rootPath (d : Document) (value : Json) (mode : AdjacentMode) :
    d.insertAdjacent d.rootPath value mode = (d, .refused (.unsupportedTail d.rootPath)) := by
  rw [insertAdjacent, insertAdjacent_of_element?_eq_none rfl]
  rfl

/-- The root is not removed. -/
theorem remove_rootPath (d : Document) :
    d.remove d.rootPath = (d, .refused (.rootRemoval d.rootPath)) := by
  rw [remove, remove_of_isRoot rfl]
  rfl

/-- The root is a processor of its own name. -/
theorem processorAt?_rootPath {d : Document} {found : Path} {name : String}
    (h : d.processorAt? d.rootPath = some (found, name)) : found = d.rootPath ∧ name = d.root := by
  obtain ⟨value, hv⟩ := exists_resolve_of_processorAt? h
  rw [processorAt?_of_last hv rfl] at h
  obtain ⟨rfl, rfl⟩ := Prod.mk.inj (Option.some.inj h)
  exact ⟨rfl, rfl⟩

/-! ## What is offered -/

/-- The edits offered at the root: by the rules of its kind, or else by those for processors. -/
def rootOffers (d : Document) (catalog : Catalog) : Offers :=
  d.kind.rootOffers?.getD (.of catalog d.root .root)

variable {d : Document} {catalog : Catalog}

/-- The rules for processors apply to routes and to roots of an unknown kind. -/
theorem rootOffers_cases (d : Document) (catalog : Catalog) :
    (d.kind ≠ .unknown ∧ d.kind.rootOffers? = some (d.rootOffers catalog)) ∨
      (d.kind = .unknown ∨ d.root = "route") ∧
        d.rootOffers catalog = .of catalog d.root .root := by
  cases ho : d.kind.rootOffers? with
  | some o =>
      have heq : d.rootOffers catalog = o := by rw [rootOffers, ho, Option.getD_some]
      have hk : d.kind ≠ .unknown := fun hk => by
        rw [hk] at ho
        contradiction
      exact .inl ⟨hk, by rw [heq]⟩
  | none =>
      have heq : d.rootOffers catalog = .of catalog d.root .root := by
        rw [rootOffers, ho, Option.getD_none]
      refine .inr ⟨?_, heq⟩
      cases EntityKind.rootOffers?_eq_none_iff.1 ho with
      | inl hroute =>
          have hk : d.kind ≠ .unknown := by rw [hroute]; decide
          have hname : d.root = d.kind.name := EntityKind.ofRootSegment_eq hk
          right
          rw [hname, hroute]
          rfl
      | inr hunknown => exact .inl hunknown

/-- An edit that kinds with rules of their own do not offer, and that is offered for the
processors off a list, is offered at the roots of an unknown kind that are off the list. -/
theorem rootOffers_iff (offered : Offers → Bool) {list : List String}
    (hown : ∀ kind o, EntityKind.rootOffers? kind = some o → offered o = false)
    (hlist : ∀ name, offered (.of catalog name .root) = !list.contains name)
    (hroute : "route" ∈ list) :
    offered (d.rootOffers catalog) = true ↔ d.kind = .unknown ∧ d.root ∉ list := by
  obtain ⟨hk, ho⟩ | ⟨hroot, heq⟩ := d.rootOffers_cases catalog
  · simp [hown _ _ ho, hk]
  · rw [heq, hlist]
    constructor
    · intro h
      have hoff : d.root ∉ list := by simpa using h
      exact ⟨hroot.resolve_right fun hr => hoff (hr ▸ hroute), hoff⟩
    · intro h
      simpa using h.2

theorem previousStep_rootOffers_iff :
    (d.rootOffers catalog).previousStep = true ↔ d.kind = .unknown ∧ d.root ∉ anchored :=
  rootOffers_iff Offers.previousStep
    (fun _ _ h => (EntityKind.rootOffers?_cases h).1) (fun _ => rfl) (by decide)

theorem nextStep_rootOffers_iff :
    (d.rootOffers catalog).nextStep = true ↔ d.kind = .unknown ∧ d.root ∉ anchored :=
  rootOffers_iff Offers.nextStep
    (fun _ _ h => (EntityKind.rootOffers?_cases h).2.1) (fun _ => rfl) (by decide)

theorem removeStep_rootOffers_iff :
    (d.rootOffers catalog).removeStep = true ↔ d.kind = .unknown ∧ d.root ∉ irremovable :=
  rootOffers_iff Offers.removeStep
    (fun _ _ h => (EntityKind.rootOffers?_cases h).2.2.1) (fun _ => rfl) (by decide)

/-- Kinds whose root has a branch of steps are declared with it. -/
theorem stepsProperty?_of_hasRootSteps {kind : EntityKind} (h : kind.hasRootSteps = true) :
    Context.builtin.catalog.stepsProperty? kind.name "steps" = some ⟨"steps", .branch⟩ := by
  cases kind with
  | intercept | interceptFrom | interceptSendToEndpoint | onException | onCompletion =>
      decide +kernel
  | route | routeConfiguration | errorHandler | restConfiguration | rest | unknown => contradiction

/-- Where the root is offered children, the catalog declares `steps` for it. -/
theorem stepsProperty?_of_children_rootOffers
    (h : (d.rootOffers Context.builtin.catalog).children = true) :
    Context.builtin.catalog.stepsProperty? d.root "steps" = some ⟨"steps", .branch⟩ := by
  obtain ⟨hk, ho⟩ | ⟨-, heq⟩ := d.rootOffers_cases Context.builtin.catalog
  · have hsteps := (EntityKind.rootOffers?_cases ho).2.2.2 h
    rw [show d.root = d.kind.name from EntityKind.ofRootSegment_eq hk]
    exact stepsProperty?_of_hasRootSteps hsteps
  · rw [heq] at h
    have hbranch : ∃ p ∈ Context.builtin.catalog.stepsProperties d.root, p.kind = .branch := by
      simpa [Offers.of] using h
    obtain ⟨p, hp, hk⟩ := hbranch
    exact Context.stepsProperty?_of_branch hp hk

/-- A property that is declared for the root is not unknown there. -/
theorem insertChild_rootPath_ne_unknown {property : String} {declared : StepsProperty}
    (h : catalog.stepsProperty? d.root property = some declared) (value : Json) (mode : ChildMode)
    (processor name : String) :
    (d.insertChild catalog d.rootPath property value mode).2 ≠
      .refused (.unknownStepsProperty processor name) := by
  intro hv
  obtain ⟨found, own, hp, hnone, -⟩ | ⟨_, _, _, _, -, -, -, -, -, herror⟩ :=
    (outcome_insertChild d catalog d.rootPath property value mode).refused_iff.1 hv
  · obtain ⟨-, rfl⟩ := processorAt?_rootPath hp
    rw [hnone] at h
    contradiction
  · contradiction

end Document

/-! ## Offers that are kept -/

namespace Offers

/-- If a step beside a path is offered, no insertion before or behind it is refused. -/
def KeepsSiblings (o : Offers) (d : Document) (path : Path) : Prop :=
  o.previousStep = true ∨ o.nextStep = true → ∀ value mode, mode ≠ .replace →
    ∀ error, (d.insertAdjacent path value mode).2 ≠ .refused error

/-- If the removal of the step at a path is offered, it is not refused. -/
def KeepsRemoval (o : Offers) (d : Document) (path : Path) : Prop :=
  o.removeStep = true → ∀ error, (d.remove path).2 ≠ .refused error

/-- If children are offered at a path, the catalog is not at a loss for their property. -/
def KeepsChildren (o : Offers) (catalog : Catalog) (d : Document) (path : Path) : Prop :=
  o.children = true → ∀ value mode processor property,
    (d.insertChild catalog path "steps" value mode).2 ≠
      .refused (.unknownStepsProperty processor property)

variable {o : Offers} {d : Document}

/-- As every insertion beside the root is refused, only those keep siblings that offer none. -/
theorem keepsSiblings_rootPath_iff :
    o.KeepsSiblings d d.rootPath ↔ ¬ (o.previousStep = true ∨ o.nextStep = true) := by
  constructor
  · intro hkept ho
    exact hkept ho .null .before (by decide) _
      (congrArg Prod.snd (d.insertAdjacent_rootPath .null .before))
  · exact fun hnone ho => absurd ho hnone

theorem keepsRemoval_rootPath_iff : o.KeepsRemoval d d.rootPath ↔ ¬ o.removeStep = true := by
  constructor
  · exact fun hkept ho => hkept ho _ (congrArg Prod.snd d.remove_rootPath)
  · exact fun hnone ho => absurd ho hnone

end Offers

namespace Editor

theorem offers?_rootPath (e : Editor) :
    e.offers? e.document.rootPath = some (e.document.rootOffers e.context.catalog) := by
  have hroot : e.document.isRootPath e.document.rootPath = true := beq_self_eq_true _
  rw [offers?]
  simp only [hroot, if_true]
  rfl

/-- **Offers at the root.** At every root there are offers.  With the built-in context,

* a step beside the root is offered only where it is not refused, exactly when the root is of
  a known kind or anchored;
* its removal is offered only where it is not refused, exactly when the root is of a known kind
  or irremovable;
* a child under `steps` is never refused for want of the property where one is offered. -/
theorem rootOffers_kept_iff (d : Document) :
    ∃ o, offers? ⟨.builtin, d⟩ d.rootPath = some o ∧
      (o.KeepsSiblings d d.rootPath ↔ (d.kind = .unknown → d.root ∈ anchored)) ∧
      (o.KeepsRemoval d d.rootPath ↔ (d.kind = .unknown → d.root ∈ irremovable)) ∧
      o.KeepsChildren Context.builtin.catalog d d.rootPath := by
  refine ⟨_, offers?_rootPath ⟨.builtin, d⟩, ?siblings, ?removal, ?children⟩
  case siblings =>
    rw [Offers.keepsSiblings_rootPath_iff, Document.previousStep_rootOffers_iff,
      Document.nextStep_rootOffers_iff, or_self, not_and, not_not]
  case removal =>
    rw [Offers.keepsRemoval_rootPath_iff, Document.removeStep_rootOffers_iff, not_and, not_not]
  case children =>
    intro ho value mode processor property
    exact Document.insertChild_rootPath_ne_unknown
      (Document.stepsProperty?_of_children_rootOffers ho) value mode processor property

/-- A root that is named like a step is offered its removal, which is refused. -/
theorem not_rootOffers_kept :
    ¬ ∀ (d : Document) (o : Offers), offers? ⟨.builtin, d⟩ d.rootPath = some o →
      o.KeepsSiblings d d.rootPath ∧ o.KeepsRemoval d d.rootPath ∧
        o.KeepsChildren Context.builtin.catalog d d.rootPath := by
  intro h
  let d : Document := ⟨.obj [("log", .obj [])], "log"⟩
  obtain ⟨-, hremoval, -⟩ := h d _ (offers?_rootPath ⟨.builtin, d⟩)
  exact hremoval (by decide +kernel) (.rootRemoval d.rootPath) (by decide +kernel)

end Editor

end FlowTree
