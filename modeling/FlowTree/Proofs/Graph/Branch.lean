import FlowTree.Proofs.Graph.Adjacent
import FlowTree.Proofs.Graph.Part

/-!
# FlowTree.Proofs.Graph.Branch

Branches: the arrays whose elements are steps.

Only branches are drawn as linked rows, and only the entry of a route hands sites over to
the row that it stands in, unless a step in some branch is called like it.

* `Json.stepsOf` — the steps in an array, elements without one left out;
* `Document.Branch` — the branches of a document, with the processors that own them;
* `Document.exists_branch_of_drawnIn`, `Document.Branch.exists_row` — linked rows are those
  of branches;
* `Document.PlainBranches` — no step is called like the entry of a route.
-/

namespace FlowTree

open FlowTree.Json FlowTree.Path

/-! ## Steps of an array -/

/-- The name of the step that an element of a branch holds: its first key. -/
def Json.stepKey? : Json → Option String
  | .obj ((key, _) :: _) => some key
  | _ => none

/-- The elements of an array. -/
def Json.items? : Json → Option (List Json)
  | .arr items => some items
  | _ => none

/-- The steps among elements that stand from a position on, each with its position and its
name.  Other elements than objects with a key hold none. -/
def Json.stepsFrom (i : Nat) (items : List Json) : List (Nat × String) :=
  (items.zipIdx i).filterMap fun (item, k) => item.stepKey?.map (k, ·)

/-- The steps among the elements of an array. -/
def Json.stepsOf (items : List Json) : List (Nat × String) := stepsFrom 0 items

/-- The path of a step of an array. -/
def Path.stepAt (array : Path) (step : Nat × String) : Path :=
  (array.elementAt step.1).child step.2

/-- Neighbours in a mapped list come from neighbours. -/
theorem infix_map_pair_iff {α β : Type} {f : α → β} {xs : List α} {p q : β} :
    [p, q] <:+: xs.map f ↔ ∃ a b, [a, b] <:+: xs ∧ f a = p ∧ f b = q := by
  rw [List.infix_map_iff]
  constructor
  · rintro ⟨pair, hpair, heq⟩
    obtain ⟨a, rest, rfl, ha, hrest⟩ := List.map_eq_cons_iff.1 heq.symm
    obtain ⟨b, rest, rfl, hb, hrest⟩ := List.map_eq_cons_iff.1 hrest
    obtain rfl := List.map_eq_nil_iff.1 hrest
    exact ⟨a, b, hpair, ha, hb⟩
  · rintro ⟨a, b, hpair, rfl, rfl⟩
    exact ⟨[a, b], hpair, rfl⟩

namespace Site

variable {array : Path} {item : Json} {σ : Site}

theorem stepKey?_of_mem_ofStep {element : Path} (h : σ ∈ ofStep element item) :
    item.stepKey? = some σ.processor := by
  unfold ofStep at h
  split at h
  · rw [List.mem_singleton.1 h]
    rfl
  · contradiction

/-- The sites of a branch are those of the steps in it. -/
theorem map_path_ofElements (i : Nat) (items : List Json) :
    (ofElements ofStep array i items).map path = (stepsFrom i items).map array.stepAt := by
  induction items generalizing i with
  | nil => rfl
  | cons item rest ih =>
    rw [ofElements, List.map_append, ih]
    cases item with
    | obj fields => cases fields <;> rfl
    | null | bool | num | str | arr => rfl

end Site

/-! ## Drawn rows -/

section Rows

variable {s : Scheme} {d : Document} {σ : Site} {row : Row} {fields : Fields Json}

theorem Site.rows_eq (hd : σ.definition = .obj fields) :
    σ.rows s = (σ.properties s).map (Row.ofProperty σ.path (σ.mapper s).links fields) := by
  rw [rows, hd]

theorem Site.exists_fields_of_mem_rows (h : row ∈ σ.rows s) :
    ∃ fields, σ.definition = .obj fields := by
  unfold rows at h
  split at h
  · exact ⟨_, ‹_›⟩
  · contradiction

theorem Document.rootRows_eq (hk : d.kind ≠ .route) (hd : d.definition? = some (.obj fields)) :
    d.rootRows s = (d.rootProperties s).map (Row.ofProperty d.rootPath true fields) := by
  simp only [rootRows, hd, if_neg hk]

theorem Document.exists_fields_of_mem_rootRows (h : row ∈ d.rootRows s) :
    ∃ fields, d.definition? = some (.obj fields) := by
  unfold rootRows at h
  split at h
  · exact ⟨_, ‹_›⟩
  · contradiction

/-- The entry of a route, which has the given definition. -/
def Document.entry (d : Document) (definition : Json) : Site :=
  ⟨d.rootPath.child "from", "from", definition⟩

/-- The root of a route stands above its entry alone. -/
theorem Document.rootRows_route (hk : d.kind = .route) {definition : Json}
    (h : d.resolve (d.rootPath.child "from") = some definition) :
    d.rootRows s = [⟨false, [d.entry definition]⟩] := by
  obtain ⟨fields, hd, hf⟩ := exists_fields_of_resolve_child h
  rw [resolve_rootPath] at hd
  simp only [rootRows, hd, if_pos hk, hf]
  rfl

theorem Document.drawnIn_entry (hk : d.kind = .route) {definition : Json}
    (h : d.resolve (d.rootPath.child "from") = some definition) :
    Row.DrawnIn s (d.rootRows s) ⟨false, [d.entry definition]⟩ := by
  refine .top ?_
  rw [rootRows_route hk h]
  exact List.mem_singleton.2 rfl

namespace Row

variable {path : Path} {links : Bool} {p : StepsProperty}

theorem ofProperty_branch (hk : p.kind = .branch) {items : List Json}
    (hv : Fields.get? p.name fields = some (.arr items)) :
    ofProperty path links fields p =
      ⟨links, Site.ofElements Site.ofStep (path.child p.name) 0 items⟩ := by
  simp [ofProperty, Site.ofProperty, hk, hv, Site.ofValue]

/-- A row that is linked, and not empty, is that of a branch. -/
theorem exists_branch_of_links (hl : (ofProperty path links fields p).links = true)
    (hσ : σ ∈ (ofProperty path links fields p).sites) :
    links = true ∧ p.kind = .branch ∧ ∃ items, Fields.get? p.name fields = some (.arr items) := by
  obtain ⟨hlinks, hkind⟩ : links = true ∧ p.kind = .branch := by simpa [ofProperty] using hl
  refine ⟨hlinks, hkind, ?_⟩
  cases hv : Fields.get? p.name fields with
  | none => simp [ofProperty, Site.ofProperty, hv] at hσ
  | some value =>
    cases value with
    | arr items => exact ⟨items, rfl⟩
    | null | bool | num | str | obj =>
      simp [ofProperty, Site.ofProperty, hv, hkind, Site.ofValue] at hσ

end Row

end Rows

/-! ## Branches -/

namespace Document

variable {s : Scheme} {d : Document}

/-- The branches of a document: arrays of steps, each with the processor that owns it. -/
inductive Branch (s : Scheme) (d : Document) : String → Path → List Json → Prop where
  | root {p : StepsProperty} {items : List Json} (hp : p ∈ (d.rootReading s).properties)
      (hk : p.kind = .branch) (h : d.resolve (d.rootPath.child p.name) = some (.arr items)) :
    Branch s d d.root (d.rootPath.child p.name) items
  | under {τ : Site} {p : StepsProperty} {items : List Json} (hτ : d.Draws s τ)
      (hp : p ∈ s.properties τ.processor) (hk : p.kind = .branch)
      (h : d.resolve (τ.path.child p.name) = some (.arr items)) :
    Branch s d τ.processor (τ.path.child p.name) items

/-- What is stored under a key of a site is a field of its definition. -/
theorem Draws.resolve_child_iff {τ : Site} (h : d.Draws s τ) {key : String} {value : Json} :
    d.resolve (τ.path.child key) = some value ↔
      ∃ fields, τ.definition = .obj fields ∧ Fields.get? key fields = some value := by
  have hr := h.resolve
  constructor
  · intro hv
    obtain ⟨fields, hobj, hv⟩ := exists_fields_of_resolve_child hv
    exact ⟨fields, Option.some.inj (hr.symm.trans hobj), hv⟩
  · rintro ⟨fields, hd, hv⟩
    rw [hd] at hr
    exact (resolve_child hr rfl key).trans hv

/-- The array of a steps property that holds a branch is one. -/
theorem Holds.exists_branch {K : Holder} (hK : d.Holds s K) {p : StepsProperty}
    (hp : p ∈ K.reading.properties) (hk : p.kind = .branch) {items : List Json}
    (h : d.resolve (K.path.child p.name) = some (.arr items)) :
    ∃ owner, d.Branch s owner (K.path.child p.name) items := by
  cases hK with
  | root => exact ⟨d.root, .root hp hk h⟩
  | @under K σ hK hσ => exact ⟨σ.processor, .under ⟨K, hK, hσ⟩ hp hk h⟩

theorem Branch.isBranch {owner : String} {branch : Path} {items : List Json}
    (h : d.Branch s owner branch items) : d.IsBranch s branch := by
  cases h with
  | root hp hk h => exact ⟨d.holder s, _, .root, hp, hk, rfl⟩
  | @under τ p items hτ hp hk h =>
    obtain ⟨K, hK, hτ⟩ := hτ
    exact ⟨τ.holder s, p, hK.under hτ, hp, hk, rfl⟩

/-- No root that owns a branch runs its steps side by side. -/
theorem root_not_parallel {p : StepsProperty} (hp : p ∈ d.rootProperties s) :
    d.root ∉ Context.parallel := by
  have hk : d.kind ≠ .unknown := by
    intro hk
    simp [rootProperties, hk, EntityKind.hasRootSteps] at hp
  rw [show d.root = d.kind.name from EntityKind.ofRootSegment_eq hk]
  cases d.kind <;> decide

/-- A linked row is that of a branch whose owner does not run its steps side by side. -/
theorem exists_branch_of_drawnIn {row : Row} {σ : Site}
    (hrow : Row.DrawnIn Context.builtin.scheme (d.rootRows Context.builtin.scheme) row)
    (hl : row.links = true) (hσ : σ ∈ row.sites) :
    ∃ owner branch items, d.Branch Context.builtin.scheme owner branch items ∧
      owner ∉ Context.parallel ∧ row.sites = Site.ofElements Site.ofStep branch 0 items := by
  have hs := Context.orderly_builtin
  cases hrow with
  | top hrow =>
    obtain ⟨fields, hd⟩ := exists_fields_of_mem_rootRows hrow
    by_cases hk : d.kind = .route
    · -- the entry of a route stands in a row that is not linked
      simp only [rootRows, hd, if_pos hk] at hrow
      split at hrow
      · obtain rfl := List.mem_singleton.1 hrow
        contradiction
      · contradiction
    · rw [rootRows_eq hk hd] at hrow
      obtain ⟨p, hp, rfl⟩ := List.mem_map.1 hrow
      obtain ⟨-, hkind, items, hv⟩ := Row.exists_branch_of_links hl hσ
      have hitems : d.resolve (d.rootPath.child p.name) = some (.arr items) :=
        (resolve_child (d.resolve_rootPath.trans hd) rfl p.name).trans hv
      have hroot := mem_rootReading_iff.2 (.inr ⟨hk, hp⟩)
      refine ⟨d.root, _, items, .root hroot hkind hitems, root_not_parallel hp, ?_⟩
      rw [Row.ofProperty_branch hkind hv]
  | @under above _ τ habove hτ hrow =>
    have hdraws := draws_of_drawnIn habove hτ
    obtain ⟨fields, hd⟩ := Site.exists_fields_of_mem_rows hrow
    rw [Site.rows_eq hd] at hrow
    obtain ⟨p, hp, rfl⟩ := List.mem_map.1 hrow
    obtain ⟨hlinks, hkind, items, hv⟩ := Row.exists_branch_of_links hl hσ
    have hitems := hdraws.resolve_child_iff.2 ⟨fields, hd, hv⟩
    refine ⟨τ.processor, _, items, .under hdraws hp hkind hitems,
      Context.links_builtin_iff.1 hlinks, ?_⟩
    rw [Row.ofProperty_branch hkind hv]

/-- Each branch is drawn as a row, which is linked unless its owner runs steps side by side. -/
theorem Branch.exists_row {owner : String} {branch : Path} {items : List Json}
    (h : d.Branch Context.builtin.scheme owner branch items) :
    ∃ row, Row.DrawnIn Context.builtin.scheme (d.rootRows Context.builtin.scheme) row ∧
      row.sites = Site.ofElements Site.ofStep branch 0 items ∧
      (owner ∉ Context.parallel → row.links = true) := by
  have hs := Context.orderly_builtin
  cases h with
  | @root p items hp hkind h =>
    obtain ⟨fields, hd, hv⟩ := exists_fields_of_resolve_child h
    rw [resolve_rootPath] at hd
    rcases mem_rootReading_iff.1 hp with ⟨-, rfl⟩ | ⟨hk, hp⟩
    · contradiction
    · have hrow : Row.ofProperty d.rootPath true fields p ∈
          d.rootRows Context.builtin.scheme := by
        rw [rootRows_eq hk hd]
        exact List.mem_map_of_mem hp
      rw [Row.ofProperty_branch hkind hv] at hrow
      exact ⟨_, .top hrow, rfl, fun _ => rfl⟩
  | @under τ p items hτ hp hkind h =>
    obtain ⟨fields, hd, hv⟩ := hτ.resolve_child_iff.1 h
    obtain ⟨above, habove, hmem⟩ := hτ.exists_row
    have hrow : Row.ofProperty τ.path (τ.mapper Context.builtin.scheme).links fields p ∈
        τ.rows Context.builtin.scheme := by
      rw [Site.rows_eq hd]
      exact List.mem_map_of_mem hp
    rw [Row.ofProperty_branch hkind hv] at hrow
    exact ⟨_, .under habove hmem hrow, rfl, Context.links_builtin_iff.2⟩

/-- The steps of the entry of a route are a branch. -/
theorem branch_entry (hk : d.kind = .route) {items : List Json}
    (h : d.resolve ((d.rootPath.child "from").child "steps") = some (.arr items)) :
    d.Branch Context.builtin.scheme "from" ((d.rootPath.child "from").child "steps") items := by
  obtain ⟨fields, hobj, -⟩ := exists_fields_of_resolve_child h
  have hσ : d.Draws Context.builtin.scheme (d.entry (.obj fields)) :=
    draws_of_drawnIn (drawnIn_entry hk hobj) (List.mem_singleton.2 rfl)
  have hp : ⟨"steps", .branch⟩ ∈ Context.builtin.scheme.properties "from" := by
    rw [Context.properties_from]
    exact List.mem_singleton.2 rfl
  exact .under hσ hp rfl h

end Document

/-! ## Entries -/

/-- Below the entry of a route stands the row of its steps. -/
theorem Site.rows_from {σ : Site} {fields : Fields Json} (hfrom : σ.processor = "from")
    (hd : σ.definition = .obj fields) :
    σ.rows Context.builtin.scheme = [Row.ofProperty σ.path true fields ⟨"steps", .branch⟩] := by
  have hproperties : σ.properties Context.builtin.scheme = [⟨"steps", .branch⟩] := by
    rw [← Context.properties_from, ← hfrom]
    rfl
  have hlinks : (σ.mapper Context.builtin.scheme).links = true := by
    refine Context.links_builtin_iff.2 ?_
    rw [hfrom]
    decide
  rw [Site.rows_eq hd, hproperties, hlinks]
  rfl

theorem Site.below_from {σ : Site} {fields : Fields Json} (hfrom : σ.processor = "from")
    (hd : σ.definition = .obj fields) :
    σ.below Context.builtin.scheme =
      (Row.ofProperty σ.path true fields ⟨"steps", .branch⟩).sites := by
  rw [Site.below, Site.rows_from hfrom hd, List.flatMap_singleton]

namespace Document

variable {s : Scheme} {d : Document}

/-- No element of a branch has `from` as its first key: a step of that name would hand steps
of its own over to the branch. -/
def PlainBranches (s : Scheme) (d : Document) : Prop :=
  ∀ owner branch items, d.Branch s owner branch items →
    ∀ item ∈ items, item.stepKey? ≠ some "from"

/-- No other steps property than the entry of a route is called `from`. -/
theorem Holds.eq_of_name_from {K : Holder} (hK : d.Holds Context.builtin.scheme K)
    {p : StepsProperty} (hp : p ∈ K.reading.properties) (hn : p.name = "from") :
    d.kind = .route ∧ K.path = d.rootPath ∧ p.kind = .singleClause := by
  cases hK with
  | root =>
    rcases mem_rootReading_iff.1 hp with ⟨hk, rfl⟩ | ⟨-, hp⟩
    · exact ⟨hk, rfl, rfl⟩
    · rcases rootProperties_cases hp with hdeclared | rfl
      · exact absurd hn ((Context.name_ne_from d.root).2 p hdeclared)
      · contradiction
  | @under K σ hK hσ => exact absurd hn ((Context.name_ne_from σ.processor).1 p hp)

/-- Where branches are plain, the only `from` is the entry of a route. -/
theorem Draws.eq_entry (h : d.PlainBranches Context.builtin.scheme) {σ : Site}
    (hσ : d.Draws Context.builtin.scheme σ) (hfrom : σ.processor = "from") :
    d.kind = .route ∧ σ.path = d.rootPath.child "from" := by
  obtain ⟨K, hK, hmem⟩ := hσ
  have hr := hK.resolve_of_ne_nil (List.ne_nil_of_mem hmem)
  obtain ⟨fields, hd, p, hp, ⟨-, -, hpath, hname⟩ | ⟨hk, items, k, item, hv, hi, hreads⟩⟩ :=
    K.place_cases hmem
  · obtain ⟨hroute, hroot, -⟩ := hK.eq_of_name_from hp (hname.symm.trans hfrom)
    rw [hpath, hroot, ← hname, hfrom]
    exact ⟨hroute, rfl⟩
  · -- in an array it would be a step of a branch, or a clause that is called `from`
    exfalso
    cases hreads with
    | step hkind key value rest =>
      rw [hd] at hr
      obtain ⟨owner, hbranch⟩ := hK.exists_branch hp hkind ((resolve_child hr rfl p.name).trans hv)
      exact h owner _ _ hbranch _ (List.mem_of_getElem? hi) (congrArg some hfrom)
    | wrapped | bare => exact hk (hK.eq_of_name_from hp hfrom).2.2

/-- A linked row has no site that hands its own over. -/
theorem not_lifts_of_links (h : d.PlainBranches Context.builtin.scheme) {row : Row} {σ : Site}
    (hrow : Row.DrawnIn Context.builtin.scheme (d.rootRows Context.builtin.scheme) row)
    (hl : row.links = true) (hσ : σ ∈ row.sites) : σ.lifts Context.builtin.scheme = false := by
  obtain ⟨owner, branch, items, hbranch, -, hsites⟩ := exists_branch_of_drawnIn hrow hl hσ
  rw [hsites] at hσ
  obtain ⟨k, item, hi, hmem⟩ := Site.mem_ofElements.1 hσ
  refine Bool.eq_false_iff.2 fun hlifts => ?_
  have hkey : item.stepKey? = some σ.processor := Site.stepKey?_of_mem_ofStep hmem
  rw [Context.lifts_builtin_iff.1 hlifts] at hkey
  exact h owner branch items hbranch item (List.mem_of_getElem? hi) hkey

end Document

end FlowTree
