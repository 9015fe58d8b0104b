import FlowTree.Proofs.Graph.Drawing
import FlowTree.Proofs.Path.Element

/-!
# FlowTree.Proofs.Graph.Site

Sites: the places of a document that are drawn.

A site is a processor with the path of its definition.  What is drawn below it stands in
rows, one for each property that holds steps, and a row lists sites again.  So a drawing
is a tree of sites, and one equation says all that drawing does at a site.

* `Site.rows`, `Document.rootRows` — the rows below a site, and below the root;
* `Site.draw_eq` — the drawing of a site is put together from those of its rows;
* `Site.induction` — what holds of a site when it holds of the sites below it holds of all.
-/

namespace FlowTree

/-- A processor in a document: the path of its definition, its name, and the definition. -/
structure Site where
  path : Path
  processor : String
  definition : Json

/-- Sites in a row, and whether each is linked to the one behind it. -/
structure Row where
  links : Bool
  sites : List Site

namespace Site

/-! ## Reading properties -/

/-- The site of a branch's element: that of its first key, if it has one. -/
def ofStep (element : Path) : Json → List Site
  | .obj ((key, value) :: _) => [⟨element.child key, key, value⟩]
  | _ => []

/-- The site of a clause: that of its name when this is its only key, else the clause. -/
def ofClause (name : String) (element : Path) : Json → List Site
  | .obj [(key, value)] =>
    if key = name then [⟨element.child name, name, value⟩]
    else [⟨element, name, .obj [(key, value)]⟩]
  | value => [⟨element, name, value⟩]

/-- The sites of elements from a position on. -/
def ofElements (reading : Path → Json → List Site) (array : Path) : Nat → List Json → List Site
  | _, [] => []
  | i, item :: rest =>
    reading (array.elementAt i) item ++ ofElements reading array (i + 1) rest

/-- The sites of the value of a steps property, which is stored at a path. -/
def ofValue (path : Path) (p : StepsProperty) : Json → List Site
  | .arr items =>
    match p.kind with
    | .singleClause => [⟨path, p.name, .arr items⟩]
    | .branch => ofElements ofStep path 0 items
    | .clauseArray => ofElements (ofClause p.name) path 0 items
  | .null => []
  | value => if p.kind = .singleClause then [⟨path, p.name, value⟩] else []

/-- The sites under a steps property of the definition at a path. -/
def ofProperty (path : Path) (p : StepsProperty) (fields : Fields Json) : List Site :=
  ((Fields.get? p.name fields).map (ofValue (path.child p.name) p)).getD []

end Site

/-- The row of a steps property; only branches are linked. -/
def Row.ofProperty (path : Path) (links : Bool) (fields : Fields Json) (p : StepsProperty) : Row :=
  ⟨links && p.kind == .branch, Site.ofProperty path p fields⟩

namespace Site

variable (s : Scheme)

/-- How the site is laid out. -/
def mapper (σ : Site) : Mapper := s.mappers.get σ.processor

/-- The steps properties that are drawn below a site. -/
def properties (σ : Site) : List StepsProperty := (σ.mapper s).properties s.catalog σ.processor

/-- The rows of sites right below a site. -/
def rows (σ : Site) : List Row :=
  match σ.definition with
  | .obj fields => (σ.properties s).map (Row.ofProperty σ.path (σ.mapper s).links fields)
  | _ => []

/-- The sites right below a site. -/
def below (σ : Site) : List Site := (σ.rows s).flatMap Row.sites

/-- What the node of a site shows. -/
def card (σ : Site) : Card := .ofStep s.catalog σ.path σ.processor σ.definition

/-- Whether the node of a site hands its children over to its parent. -/
def lifts (σ : Site) : Bool := (σ.mapper s).lifts

/-- The drawing of a site. -/
def draw (σ : Site) : Drawing := FlowTree.draw s σ.path σ.processor σ.definition

end Site

/-- The drawings of a row. -/
def Row.draw (s : Scheme) (row : Row) : List Drawing :=
  if row.links then Drawing.chain (row.sites.map (Site.draw s)) else row.sites.map (Site.draw s)

/-- What rows add to a list of children. -/
def Row.drawAll (s : Scheme) (rows : List Row) : List Drawing :=
  rows.flatMap fun row => Drawing.attachAll (row.draw s)

namespace Document

/-- The steps properties of a root that is drawn by them. -/
def rootProperties (d : Document) (s : Scheme) : List StepsProperty :=
  match d.kind with
  | .routeConfiguration => s.catalog.stepsProperties d.root
  | kind => if kind.hasRootSteps then [⟨"steps", .branch⟩] else []

/-- The rows of sites right below the root of a document. -/
def rootRows (d : Document) (s : Scheme) : List Row :=
  match d.definition? with
  | some (.obj fields) =>
    if d.kind = .route then
      match Fields.get? "from" fields with
      | some definition => [⟨false, [⟨d.rootPath.child "from", "from", definition⟩]⟩]
      | none => []
    else (d.rootProperties s).map (Row.ofProperty d.rootPath true fields)
  | _ => []

/-- The sites right below the root of a document. -/
def rootSites (d : Document) (s : Scheme) : List Site := (d.rootRows s).flatMap Row.sites

end Document

/-! ## Drawing sites -/

namespace Site

variable {s : Scheme}

theorem drawBranch_eq (path : Path) (i : Nat) (items : List Json) :
    drawBranch s path i items = (ofElements ofStep path i items).map (draw s) := by
  induction items generalizing i with
  | nil => simp [drawBranch, ofElements]
  | cons item rest ih =>
      rw [ofElements, List.map_append, ← ih (i + 1)]
      cases item with
      | obj fields =>
          cases fields with
          | nil => simp [drawBranch, ofStep]
          | cons field fields => simp [drawBranch, ofStep, draw]
      | null | bool | num | str | arr => simp [drawBranch, ofStep]

theorem drawClauses_eq (path : Path) (name : String) (i : Nat) (items : List Json) :
    drawClauses s path name i items =
      (ofElements (ofClause name) path i items).map (draw s) := by
  induction items generalizing i with
  | nil => simp [drawClauses, ofElements]
  | cons item rest ih =>
      rw [ofElements, List.map_append, ← ih (i + 1)]
      cases item with
      | obj fields =>
          rcases fields with - | ⟨⟨key, value⟩, - | ⟨field, fields⟩⟩
          · simp [drawClauses, ofClause, draw]
          · by_cases h : key = name <;> simp [drawClauses, ofClause, draw, h]
          · simp [drawClauses, ofClause, draw]
      | null | bool | num | str | arr => simp [drawClauses, ofClause, draw]

theorem drawProperty_eq (path : Path) (links : Bool) (p : StepsProperty) (fields : Fields Json) :
    drawProperty s path links p fields = (Row.ofProperty path links fields p).draw s := by
  induction fields with
  | nil => cases links <;> cases p <;> simp [drawProperty, Row.draw, Row.ofProperty, ofProperty,
      Drawing.chain, Drawing.chainBehind]
  | cons field rest ih =>
      obtain ⟨key, value⟩ := field
      by_cases h : key = p.name
      · rcases p with ⟨name, - | - | -⟩ <;> cases value <;> cases links <;>
          simp_all [drawProperty, Row.draw, Row.ofProperty, ofProperty, Fields.get?_cons, ofValue,
            drawBranch_eq, drawClauses_eq, Drawing.chain, Drawing.chainBehind, draw]
      · have hrow : Row.ofProperty path links ((key, value) :: rest) p =
            Row.ofProperty path links rest p := by
          simp [Row.ofProperty, ofProperty, Fields.get?_cons, h]
        rw [hrow, ← ih, drawProperty.eq_def]
        exact if_neg h

/-- The drawing of a site: its node, and below it what its rows add. -/
theorem draw_eq (σ : Site) :
    σ.draw s = .node (σ.card s) none none (σ.lifts s)
      ((σ.rows s).flatMap fun row => Drawing.attachAll (row.draw s)) := by
  obtain ⟨path, processor, definition⟩ := σ
  cases definition with
  | obj fields =>
      simp only [draw, FlowTree.draw, card, lifts, rows, mapper, properties, List.flatMap_map,
        drawProperty_eq]
  | null | bool | num | str | arr => simp [draw, FlowTree.draw, card, lifts, rows, mapper]

end Site

/-- What is drawn right below a root is what its rows add. -/
theorem Document.attachAll_drawRootChildren (d : Document) (s : Scheme) :
    Drawing.attachAll (d.drawRootChildren s) =
      (d.rootRows s).flatMap fun row => Drawing.attachAll (row.draw s) := by
  have hattach (ps : List StepsProperty) (fields : Fields Json) :
      Drawing.attachAll (ps.flatMap fun p => drawProperty s d.rootPath true p fields) =
        (ps.map (Row.ofProperty d.rootPath true fields)).flatMap fun row =>
          Drawing.attachAll (row.draw s) := by
    simp only [Drawing.attachAll, List.flatMap_assoc, List.flatMap_map, Site.drawProperty_eq]
  unfold drawRootChildren rootRows rootProperties
  cases d.definition? with
  | none => rfl
  | some definition =>
      cases definition with
      | obj fields =>
          cases hk : d.kind with
          | route =>
              cases hf : Fields.get? "from" fields with
              | none => simp [Drawing.attachAll, hf]
              | some definition => simp [Row.draw, Site.draw, hf]
          | routeConfiguration => simpa using hattach _ fields
          | errorHandler | restConfiguration | rest | unknown => rfl
          | intercept | interceptFrom | interceptSendToEndpoint | onException | onCompletion =>
              simpa [EntityKind.hasRootSteps] using hattach [⟨"steps", .branch⟩] fields
      | null | bool | num | str | arr => rfl

/-- The drawing of a document: its root, and below it what its rows add. -/
theorem Document.drawing_eq (d : Document) (s : Scheme) :
    d.drawing s = .node (.ofEntity s.catalog d.root d.kind d.definition?) none none false
      (Row.drawAll s (d.rootRows s)) := by
  rw [drawing, attachAll_drawRootChildren]
  rfl

/-! ## Sites are parts of the sites above them -/

namespace Path

theorem prefix_child (p : Path) (key : String) : p.segments <+: (p.child key).segments :=
  List.prefix_append _ _

theorem prefix_elementAt (p : Path) (i : Nat) : p.segments <+: (p.elementAt i).segments :=
  List.prefix_append _ _

end Path

namespace Site

variable {s : Scheme}

theorem mem_ofElements {reading : Path → Json → List Site} {array : Path} {i : Nat}
    {items : List Json} {τ : Site} :
    τ ∈ ofElements reading array i items ↔
      ∃ k item, items[k]? = some item ∧ τ ∈ reading (array.elementAt (i + k)) item := by
  induction items generalizing i with
  | nil => simp [ofElements]
  | cons item rest ih =>
      rw [ofElements, List.mem_append, ih]
      constructor
      · rintro (h | ⟨k, item', hk, h⟩)
        · exact ⟨0, item, rfl, h⟩
        · exact ⟨k + 1, item', hk, by rwa [Nat.add_right_comm] at h⟩
      · rintro ⟨k, item', hk, h⟩
        cases k with
        | zero =>
            obtain rfl := Option.some.inj hk
            exact .inl h
        | succ k => exact .inr ⟨k, item', hk, by rwa [Nat.add_right_comm]⟩

/-- The definition of a step is part of the step. -/
theorem sizeOf_le_of_mem_ofStep {element : Path} {item : Json} {τ : Site}
    (h : τ ∈ ofStep element item) : sizeOf τ.definition ≤ sizeOf item := by
  unfold ofStep at h
  split at h
  · obtain rfl := List.mem_singleton.1 h
    simp
    omega
  · contradiction

/-- The definition of a clause is the clause or part of it. -/
theorem sizeOf_le_of_mem_ofClause {name : String} {element : Path} {item : Json} {τ : Site}
    (h : τ ∈ ofClause name element item) : sizeOf τ.definition ≤ sizeOf item := by
  unfold ofClause at h
  split at h
  · split at h <;> obtain rfl := List.mem_singleton.1 h <;> simp
    omega
  · obtain rfl := List.mem_singleton.1 h
    exact Nat.le_refl _

theorem sizeOf_lt_of_mem_ofElements {reading : Path → Json → List Site} {array : Path} {i : Nat}
    {items : List Json} {τ : Site}
    (hr : ∀ {element item τ}, τ ∈ reading element item → sizeOf τ.definition ≤ sizeOf item)
    (h : τ ∈ ofElements reading array i items) : sizeOf τ.definition < sizeOf items := by
  obtain ⟨k, item, hk, hi⟩ := mem_ofElements.1 h
  exact Nat.lt_of_le_of_lt (hr hi) (List.sizeOf_lt_of_mem (List.mem_of_getElem? hk))

theorem sizeOf_le_of_mem_ofValue {path : Path} {p : StepsProperty} {value : Json} {τ : Site}
    (h : τ ∈ ofValue path p value) : sizeOf τ.definition ≤ sizeOf value := by
  unfold ofValue at h
  split at h
  · split at h
    · obtain rfl := List.mem_singleton.1 h
      exact Nat.le_refl _
    · have := sizeOf_lt_of_mem_ofElements sizeOf_le_of_mem_ofStep h
      simp
      omega
    · have := sizeOf_lt_of_mem_ofElements sizeOf_le_of_mem_ofClause h
      simp
      omega
  · contradiction
  · split at h
    · obtain rfl := List.mem_singleton.1 h
      exact Nat.le_refl _
    · contradiction

theorem sizeOf_lt_of_get? {key : String} {fields : Fields Json} {value : Json}
    (h : Fields.get? key fields = some value) : sizeOf value < sizeOf fields := by
  induction fields with
  | nil => contradiction
  | cons field rest ih =>
      obtain ⟨k, v⟩ := field
      rw [Fields.get?_cons] at h
      split at h
      · obtain rfl := Option.some.inj h
        simp
        omega
      · have := ih h
        simp
        omega

/-- A site below another one is a proper part of it. -/
theorem sizeOf_lt_of_mem_below {σ τ : Site} (h : τ ∈ σ.below s) :
    sizeOf τ.definition < sizeOf σ.definition := by
  obtain ⟨row, hrow, hτ⟩ := List.mem_flatMap.1 h
  unfold rows at hrow
  split at hrow
  · rename_i fields hd
    rw [hd]
    obtain ⟨p, -, rfl⟩ := List.mem_map.1 hrow
    obtain ⟨value, hv, hτ⟩ : ∃ value, Fields.get? p.name fields = some value ∧
        τ ∈ ofValue (σ.path.child p.name) p value := by
      cases hv : Fields.get? p.name fields with
      | none => simp [Row.ofProperty, ofProperty, hv] at hτ
      | some value => exact ⟨value, rfl, by simpa [Row.ofProperty, ofProperty, hv] using hτ⟩
    have hle := sizeOf_le_of_mem_ofValue hτ
    have hlt := sizeOf_lt_of_get? hv
    simp
    omega
  · contradiction

/-- What holds of a site when it holds of all sites right below it holds of every site. -/
theorem induction {motive : Site → Prop}
    (step : ∀ σ, (∀ τ ∈ σ.below s, motive τ) → motive σ) (σ : Site) : motive σ :=
  step σ fun τ _ => induction step τ
termination_by sizeOf σ.definition
decreasing_by exact sizeOf_lt_of_mem_below ‹_›

/-! ## Paths of sites -/

theorem prefix_of_mem_ofElements {reading : Path → Json → List Site} {array : Path} {i : Nat}
    {items : List Json} {τ : Site}
    (hr : ∀ {e item τ}, τ ∈ reading e item → e.segments <+: τ.path.segments)
    (h : τ ∈ ofElements reading array i items) :
    ∃ k, k < items.length ∧ (array.elementAt (i + k)).segments <+: τ.path.segments := by
  obtain ⟨k, item, hk, hτ⟩ := mem_ofElements.1 h
  exact ⟨k, (List.getElem?_eq_some_iff.1 hk).1, hr hτ⟩

theorem prefix_of_mem_ofStep {e : Path} {item : Json} {τ : Site} (h : τ ∈ ofStep e item) :
    e.segments <+: τ.path.segments := by
  unfold ofStep at h
  split at h
  · rw [List.mem_singleton.1 h]
    exact Path.prefix_child _ _
  · contradiction

theorem prefix_of_mem_ofClause {name : String} {e : Path} {item : Json} {τ : Site}
    (h : τ ∈ ofClause name e item) : e.segments <+: τ.path.segments := by
  unfold ofClause at h
  split at h
  · split at h <;> obtain rfl := List.mem_singleton.1 h
    · exact Path.prefix_child _ _
    · exact List.prefix_rfl
  · obtain rfl := List.mem_singleton.1 h
    exact List.prefix_rfl

theorem prefix_of_mem_ofValue {path : Path} {p : StepsProperty} {value : Json} {τ : Site}
    (h : τ ∈ ofValue path p value) : path.segments <+: τ.path.segments := by
  unfold ofValue at h
  split at h
  · split at h
    · obtain rfl := List.mem_singleton.1 h
      exact List.prefix_rfl
    · obtain ⟨k, -, hk⟩ := prefix_of_mem_ofElements prefix_of_mem_ofStep h
      exact (Path.prefix_elementAt path _).trans hk
    · obtain ⟨k, -, hk⟩ := prefix_of_mem_ofElements prefix_of_mem_ofClause h
      exact (Path.prefix_elementAt path _).trans hk
  · contradiction
  · split at h
    · obtain rfl := List.mem_singleton.1 h
      exact List.prefix_rfl
    · contradiction

theorem prefix_of_mem_ofProperty {path : Path} {p : StepsProperty} {fields : Fields Json} {τ : Site}
    (h : τ ∈ ofProperty path p fields) : (path.child p.name).segments <+: τ.path.segments := by
  unfold ofProperty at h
  cases hv : Fields.get? p.name fields with
  | none => simp [hv] at h
  | some value =>
      rw [hv] at h
      exact prefix_of_mem_ofValue h

/-- The path of a site below another one lies below that of the other. -/
theorem prefix_of_mem_below {σ τ : Site} (h : τ ∈ σ.below s) :
    σ.path.segments <+: τ.path.segments := by
  obtain ⟨row, hrow, hτ⟩ := List.mem_flatMap.1 h
  unfold rows at hrow
  split at hrow
  · obtain ⟨p, -, rfl⟩ := List.mem_map.1 hrow
    exact (Path.prefix_child _ _).trans (prefix_of_mem_ofProperty hτ)
  · contradiction

end Site

end FlowTree
