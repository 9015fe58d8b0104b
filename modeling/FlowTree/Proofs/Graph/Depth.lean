import FlowTree.Proofs.Graph.Holder

/-!
# FlowTree.Proofs.Graph.Depth

What is drawn below a site stands deeper in the document.

A catalog may say that a processor has itself as a clause, so nothing in the catalog comes to
an end.  But a site below another one has a longer path, and no path that leads to something
is longer than the document is high.

* `Json.length_add_height_le` — a path and what it leads to fit into the height of a document;
* `Path.Extends` — a path goes on behind another one;
* `Site.In` — a site stands in a document;
* `Site.In.descends`, `Document.descends_of_mem_rootSites` — so do the sites below it, under
  longer paths.
-/

namespace FlowTree

/-! ## Heights -/

namespace Json

theorem height_le_of_getElem? {items : List Json} {i : Nat} {item : Json}
    (h : items[i]? = some item) : item.height ≤ heightOfItems items := by
  induction items generalizing i with
  | nil => contradiction
  | cons first rest ih =>
      rw [heightOfItems]
      cases i with
      | zero =>
          obtain rfl := Option.some.inj h
          omega
      | succ i =>
          have := ih h
          omega

theorem height_le_of_get? {fields : Fields Json} {key : String} {value : Json}
    (h : Fields.get? key fields = some value) : value.height ≤ heightOfFields fields := by
  induction fields with
  | nil => contradiction
  | cons field rest ih =>
      obtain ⟨k, v⟩ := field
      rw [Fields.get?_cons] at h
      rw [heightOfFields]
      split at h
      · obtain rfl := Option.some.inj h
        omega
      · have := ih h
        omega

/-- What one step leads to is lower than what it starts from. -/
theorem height_lt_of_step? {step : Segment} {doc child : Json} (h : step? step doc = some child) :
    child.height < doc.height := by
  unfold step? at h
  split at h
  · have := height_le_of_get? h
    rw [height]
    omega
  · have := height_le_of_getElem? h
    rw [height]
    omega
  · contradiction

/-- A path and what it leads to fit into the height of the document. -/
theorem length_add_height_le {path : List Segment} {doc node : Json}
    (h : get? path doc = some node) : path.length + node.height ≤ doc.height := by
  induction path generalizing doc with
  | nil =>
      obtain rfl := Option.some.inj h
      simp
  | cons step rest ih =>
      obtain ⟨child, hc, hn⟩ := Option.bind_eq_some_iff.1 h
      have hlower := height_lt_of_step? hc
      have hrest := ih hn
      rw [List.length_cons]
      omega

end Json

/-! ## Longer paths -/

/-- A path goes on behind another one. -/
def Path.Extends (p q : Path) : Prop := q.segments <+: p.segments ∧ p ≠ q

namespace Path

variable {p q r : Path}

theorem extends_iff_length : p.Extends q ↔ q.segments <+: p.segments ∧ q.length < p.length := by
  constructor
  · rintro ⟨habove, hne⟩
    refine ⟨habove, Nat.lt_of_le_of_ne habove.length_le fun hlength => hne ?_⟩
    exact (eq_of_segments (habove.eq_of_length hlength)).symm
  · rintro ⟨habove, hlength⟩
    exact ⟨habove, by rintro rfl; omega⟩

theorem extends_of_prefix_child {key : String} (h : (q.child key).segments <+: p.segments) :
    p.Extends q := by
  have hlength := h.length_le
  rw [segments_child, List.length_append, List.length_singleton] at hlength
  exact extends_iff_length.2 ⟨(prefix_child q key).trans h, hlength⟩

theorem Extends.trans (h : p.Extends q) (h' : q.Extends r) : p.Extends r := by
  rw [extends_iff_length] at h h' ⊢
  exact ⟨h'.1.trans h.1, Nat.lt_trans h'.2 h.2⟩

end Path

variable {s : Scheme}

/-! ## Definitions in a document -/

namespace Document

open FlowTree.Json

variable {d : Document} {K : Holder}

theorem resolve_rootPath (d : Document) : d.resolve d.rootPath = d.definition? := by
  have h (value : Json) (key : String) : get? [.name key] value = value.field? key := by
    cases value with
    | obj fields =>
        rw [get?_cons, step?]
        cases h : Fields.get? key fields <;> simp [field?, h]
    | null | bool | num | str | arr => rfl
  exact h d.value d.root

/-- With the definition of a holder, those of its sites are in the document. -/
theorem resolve_of_mem_sites (hK : d.resolve K.path = some K.definition) {τ : Site}
    (h : τ ∈ K.sites) : d.resolve τ.path = some τ.definition := by
  obtain ⟨rel, hpath, hg⟩ := Holder.get?_of_mem_sites h
  rw [resolve, Json.resolve] at hK ⊢
  rw [hpath, get?_append, hK, Option.bind_some, hg]

/-- The definition under the root segment is there when something is drawn below it. -/
theorem resolve_holder (h : (d.holder s).sites ≠ []) :
    d.resolve (d.holder s).path = some (d.holder s).definition := by
  rw [holder, resolve_rootPath]
  cases hd : d.definition? with
  | some definition => rfl
  | none => simp [holder, Holder.sites, hd] at h

end Document

/-! ## Sites below sites -/

/-- A site stands in a document when its definition is what its path leads to. -/
def Site.In (d : Document) (σ : Site) : Prop := d.resolve σ.path = some σ.definition

/-- What a holder in a document holds stands in the document, under longer paths. -/
theorem Holder.descends_of_mem_sites {d : Document} {K : Holder}
    (hK : d.resolve K.path = some K.definition) {τ : Site} (h : τ ∈ K.sites) :
    τ.In d ∧ τ.path.Extends K.path := by
  obtain ⟨key, hkey⟩ := K.exists_key_of_mem h
  exact ⟨Document.resolve_of_mem_sites hK h, Path.extends_of_prefix_child hkey⟩

/-- What is drawn right below the root of a document stands in it, under longer paths. -/
theorem Document.descends_of_mem_rootSites {d : Document} {τ : Site} (h : τ ∈ d.rootSites s) :
    τ.In d ∧ τ.path.Extends d.rootPath := by
  rw [rootSites_eq] at h
  exact (d.holder s).descends_of_mem_sites
    (Document.resolve_holder (List.ne_nil_of_mem h)) h

/-- The sites below a site of a document stand in the document, under longer paths. -/
theorem Site.In.descends {d : Document} {σ τ : Site} (hσ : σ.In d) (h : τ ∈ σ.below s) :
    τ.In d ∧ τ.path.Extends σ.path := by
  rw [below_eq] at h
  exact (σ.holder s).descends_of_mem_sites hσ h

end FlowTree
