import FlowTree.Proofs.Graph.Insertion

/-!
# FlowTree.Proofs.Editor.StepHolder

Two paths of one step: its own, and that of the step holder around it.

Whatever is read at a path is read of the processor that the path addresses, so paths that
address one processor are read alike.  The path of an array element addresses the step in it
when the element is a step holder, an object with a single key, and the array is called
`steps`.  A graph asks for less: it draws the first key of every object in a branch, whatever
the branch is called.

* `Editor.read_alike` — paths that address one processor offer the same and have one part;
* `Editor.stepHolder_interchangeable` — the path of a drawn step and that of its step holder
  are read alike;
* `Editor.not_element_interchangeable` — those of other elements of branches are not.
-/

namespace FlowTree

open FlowTree.Json FlowTree.Path

namespace Editor

/-- A node is drawn from an element of a branch, as the step under a key of the element. -/
def DrawnFrom (e : Editor) (n : Node) (branch : Path) (k : Nat) (key : String) : Prop :=
  n.card.path = (branch.elementAt k).child key ∧
    ∃ K p, e.document.Holds e.context.scheme K ∧ p ∈ K.reading.properties ∧ p.kind = .branch ∧
      branch = K.path.child p.name

/-- The path of an element is read as that of the node that is drawn from it. -/
structure Interchangeable (e : Editor) (n : Node) (element : Path) (key : String) : Prop where
  processorAt?_eq : e.document.processorAt? element = some (n.card.path, key)
  offers?_eq : e.offers? element = e.offers? n.card.path
  part?_eq : e.part? element = e.part? n.card.path

/-- Paths that address one processor offer the same edits and have one part. -/
theorem read_alike (e : Editor) {p q : Path} (hp : e.document.isRootPath p = false)
    (hq : e.document.isRootPath q = false)
    (h : e.document.processorAt? p = e.document.processorAt? q) :
    e.offers? p = e.offers? q ∧ e.part? p = e.part? q := by
  constructor
  · simp only [offers?, hp, hq, h]
  · simp only [part?, Graph.ofPart?_eq, Graph.drawnPart?, hp, hq, h]

/-- Where a path that is not that of the root addresses a processor, edits are offered and
there is a part. -/
theorem isSome_read (e : Editor) {p path : Path} {processor : String} {definition : Json}
    (hp : e.document.isRootPath p = false)
    (h : e.document.processorAt? p = some (path, processor))
    (hr : e.document.resolve path = some definition) :
    (e.offers? p).isSome = true ∧ (e.part? p).isSome = true := by
  constructor
  · simp [offers?, hp, h]
  · simp [part?, Graph.ofPart?_eq, Graph.drawnPart?, hp, h, hr]

/-- A node with the path of a key in an element shows the step of that name, and its path leads
to a definition. -/
theorem resolve_of_node (e : Editor) {n : Node} {i : Nat} (hn : e.graph.get? i = some n)
    {steps : Path} {k : Nat} {key : String}
    (hpath : n.card.path = (steps.elementAt k).child key) :
    n.card.processor = key ∧
      ∃ definition, e.document.resolve n.card.path = some definition := by
  obtain ⟨τ, hτ, hcard, hown, hkey⟩ := Graph.exists_draws_of_child hn hpath
  have hprocessor : n.card.processor = τ.processor := by rw [hcard]; rfl
  exact ⟨hprocessor.trans hkey, τ.definition, by rw [hpath, ← hown, hτ.resolve]⟩

/-- **Step holders.** Where a step is drawn from a step holder in an array called `steps`, the
path of the step holder is read as that of the step: it addresses the step, and both paths are
offered the same edits and have the same part. -/
theorem stepHolder_interchangeable (e : Editor) {n : Node} {i : Nat}
    (hn : e.graph.get? i = some n) {steps : Path} {k : Nat} {key : String}
    (hpath : n.card.path = (steps.elementAt k).child key) (hsteps : steps.last = .name "steps")
    {field : String × Json}
    (hone : e.document.resolve (steps.elementAt k) = some (.obj [field])) :
    e.Interchangeable n (steps.elementAt k) key ∧ n.card.processor = key ∧
      (e.offers? n.card.path).isSome = true ∧ (e.part? n.card.path).isSome = true := by
  obtain ⟨name, value⟩ := field
  obtain ⟨hprocessor, definition, hr⟩ := e.resolve_of_node hn hpath
  have hkey : key = name := by
    rw [hpath] at hr
    exact (Document.resolve_child_stepHolder hone hr).1
  have helement : e.document.processorAt? (steps.elementAt k) = some (n.card.path, key) := by
    rw [hpath, hkey]
    exact Document.processorAt?_stepHolder (lastName?_of_last hsteps) hone
  have hown : e.document.processorAt? n.card.path = some (n.card.path, key) :=
    Document.processorAt?_of_last hr (by rw [hpath, last_child])
  have hrootElement : e.document.isRootPath (steps.elementAt k) = false :=
    e.document.isRootPath_join steps (.index k)
  have hrootOwn : e.document.isRootPath n.card.path = false := by
    rw [hpath]
    exact e.document.isRootPath_join (steps.elementAt k) (.name key)
  obtain ⟨hoffers, hpart⟩ := e.read_alike hrootElement hrootOwn (helement.trans hown.symm)
  exact ⟨⟨helement, hoffers, hpart⟩, hprocessor, e.isSome_read hrootOwn hown hr⟩

/-- A step within a step of a processor that only this catalog knows. -/
theorem stepHolder_interchangeable_custom :
    let custom : ProcessorEntry := ⟨"custom", "Custom", none, none, [⟨"steps", .branch⟩]⟩
    let inner : Json := .obj [("custom", .obj [("steps", .arr [.obj [("log", .obj [])]])])]
    let d : Document := ⟨.obj [("onException", .obj [("steps", .arr [inner])])], "onException"⟩
    let e : Editor :=
      ⟨{ Context.builtin with catalog := Catalog.builtin.insertProcessor custom }, d⟩
    let steps := (((d.rootPath.child "steps").elementAt 0).child "custom").child "steps"
    ∃ n, e.graph.get? 2 = some n ∧ n.card.path = (steps.elementAt 0).child "log" ∧
      e.Interchangeable n (steps.elementAt 0) "log" ∧ (e.part? n.card.path).isSome = true := by
  intro custom inner d e steps
  obtain ⟨n, hn, hpath⟩ : ∃ n, e.graph.get? 2 = some n ∧
      n.card.path = (steps.elementAt 0).child "log" :=
    Option.map_eq_some_iff.1 (by decide +kernel)
  have hone : d.resolve (steps.elementAt 0) = some (.obj [("log", .obj [])]) := by
    decide +kernel
  obtain ⟨halike, -, -, hpart⟩ := stepHolder_interchangeable e hn hpath
    (by decide +kernel) hone
  exact ⟨n, hn, hpath, halike, hpart⟩

/-- The path of an element with several keys addresses the element, though a step is drawn
from it; and so does the path of a step holder in a branch of another name. -/
theorem not_element_interchangeable :
    (¬ ∀ (d : Document) (n : Node) (i : Nat) (branch : Path) (k : Nat) (key : String),
      (⟨.builtin, d⟩ : Editor).graph.get? i = some n →
      (⟨.builtin, d⟩ : Editor).DrawnFrom n branch k key →
      (⟨.builtin, d⟩ : Editor).Interchangeable n (branch.elementAt k) key) ∧
    ¬ ∀ (e : Editor) (n : Node) (i : Nat) (branch : Path) (k : Nat) (key : String)
      (field : String × Json), e.context.mappers = .builtin →
      e.graph.get? i = some n → e.DrawnFrom n branch k key →
      e.document.resolve (branch.elementAt k) = some (.obj [field]) →
      e.Interchangeable n (branch.elementAt k) key := by
  constructor
  · intro h
    let d : Document :=
      ⟨.obj [("onException", .obj [("steps", .arr [.obj [("log", .obj []), ("x", .null)]])])],
        "onException"⟩
    let steps := d.rootPath.child "steps"
    obtain ⟨n, hn, hpath⟩ : ∃ n, (⟨.builtin, d⟩ : Editor).graph.get? 1 = some n ∧
        n.card.path = (steps.elementAt 0).child "log" :=
      Option.map_eq_some_iff.1 (by decide +kernel)
    have hdrawn : (⟨.builtin, d⟩ : Editor).DrawnFrom n steps 0 "log" :=
      ⟨hpath, d.holder Context.builtin.scheme, ⟨"steps", .branch⟩, .root, by decide +kernel, rfl, rfl⟩
    have haddressed := (h d n 1 steps 0 "log" hn hdrawn).processorAt?_eq
    rw [hpath] at haddressed
    exact absurd haddressed (by decide +kernel)
  · intro h
    let custom : ProcessorEntry :=
      ⟨"routeConfiguration", "Route Configuration", none, none, [⟨"parts", .branch⟩]⟩
    let d : Document :=
      ⟨.obj [("routeConfiguration", .obj [("parts", .arr [.obj [("log", .obj [])]])])],
        "routeConfiguration"⟩
    let e : Editor :=
      ⟨{ Context.builtin with catalog := Catalog.builtin.insertProcessor custom }, d⟩
    let parts := d.rootPath.child "parts"
    obtain ⟨n, hn, hpath⟩ : ∃ n, e.graph.get? 1 = some n ∧
        n.card.path = (parts.elementAt 0).child "log" :=
      Option.map_eq_some_iff.1 (by decide +kernel)
    have hdrawn : e.DrawnFrom n parts 0 "log" :=
      ⟨hpath, d.holder e.context.scheme, ⟨"parts", .branch⟩, .root, by decide +kernel, rfl, rfl⟩
    have hone : d.resolve (parts.elementAt 0) = some (.obj [("log", .obj [])]) := by
      decide +kernel
    have haddressed := (h e n 1 parts 0 "log" _ rfl hn hdrawn hone).processorAt?_eq
    rw [hpath] at haddressed
    exact absurd haddressed (by decide +kernel)

end Editor

end FlowTree
