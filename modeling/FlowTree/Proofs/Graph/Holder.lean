import FlowTree.Proofs.Graph.Site
import FlowTree.Proofs.Tree.Frame
import Mathlib.Data.List.Basic

/-!
# FlowTree.Proofs.Graph.Holder

Holders: definitions whose fields hold the sites below them.

The root of a document and the sites in it hold sites in the same way: every steps
property in turn, each of them read from the field of its name.  An edit of a document
changes one field of one holder, and leaves alone what the others hold.

* `Holder.sites` — the sites that a holder holds;
* `Reading.Orderly`, `Scheme.Orderly` — no two steps properties share a field, and none
  is a field that cards are made from;
* `Holder.pairwise_forks`, `Holder.pairwise_apart` — sites of a holder stand under different
  steps properties or at different positions, and so apart;
* `Holder.exists_split` — a site of a holder with another definition stands in its place
  between the others.
-/

namespace FlowTree

open FlowTree.Path

/-- How fields of a definition are read. -/
inductive Reading where
  /-- The entry of a route, whatever is stored there. -/
  | entry
  /-- The given steps properties, one after the other. -/
  | declared (properties : List StepsProperty)

namespace Reading

/-- The steps properties that are read, in order. -/
def properties : Reading → List StepsProperty
  | entry => [⟨"from", .singleClause⟩]
  | declared ps => ps

/-- The sites of a value that is stored under a steps property. -/
def sitesOf (r : Reading) (path : Path) (p : StepsProperty) (value : Json) : List Site :=
  match r with
  | entry => [⟨path, p.name, value⟩]
  | declared _ => Site.ofValue path p value

end Reading

/-- A definition in a document, and how its fields are read. -/
structure Holder where
  path : Path
  reading : Reading
  definition : Json

namespace Holder

/-- The sites under one steps property. -/
def sitesUnder (K : Holder) (fields : Fields Json) (p : StepsProperty) : List Site :=
  ((Fields.get? p.name fields).map (K.reading.sitesOf (K.path.child p.name) p)).getD []

/-- The sites that a holder holds. -/
def sites (K : Holder) : List Site :=
  match K.definition with
  | .obj fields => K.reading.properties.flatMap (K.sitesUnder fields)
  | _ => []

/-- The holder with another definition. -/
def holding (K : Holder) (definition : Json) : Holder := { K with definition }

theorem sites_holding_obj (K : Holder) (fields : Fields Json) :
    (K.holding (.obj fields)).sites = K.reading.properties.flatMap (K.sitesUnder fields) := rfl

theorem mem_sites_iff {K : Holder} {τ : Site} :
    τ ∈ K.sites ↔ ∃ fields p value, K.definition = .obj fields ∧ p ∈ K.reading.properties ∧
      Fields.get? p.name fields = some value ∧
      τ ∈ K.reading.sitesOf (K.path.child p.name) p value := by
  unfold sites
  constructor
  · intro h
    split at h
    · rename_i fields hd
      obtain ⟨p, hp, hτ⟩ := List.mem_flatMap.1 h
      unfold sitesUnder at hτ
      cases hv : Fields.get? p.name fields with
      | none => simp [hv] at hτ
      | some value =>
          rw [hv] at hτ
          exact ⟨fields, p, value, hd, hp, hv, hτ⟩
    · contradiction
  · rintro ⟨fields, p, value, hd, hp, hv, hτ⟩
    rw [hd]
    refine List.mem_flatMap.2 ⟨p, hp, ?_⟩
    rw [sitesUnder, hv]
    exact hτ

end Holder

variable {s : Scheme}

/-- What is drawn below a site, as a holder. -/
def Site.holder (s : Scheme) (σ : Site) : Holder :=
  ⟨σ.path, .declared (σ.properties s), σ.definition⟩

theorem Site.below_eq (σ : Site) : σ.below s = (σ.holder s).sites := by
  obtain ⟨path, processor, definition⟩ := σ
  unfold below rows
  cases definition with
  | obj fields =>
      rw [List.flatMap_map]
      rfl
  | null | bool | num | str | arr => rfl

/-- How the definition under the root segment is read. -/
def Document.rootReading (d : Document) (s : Scheme) : Reading :=
  if d.kind = .route then .entry else .declared (d.rootProperties s)

/-- What is drawn below the root of a document, as a holder. -/
def Document.holder (d : Document) (s : Scheme) : Holder :=
  ⟨d.rootPath, d.rootReading s, d.definition?.getD .null⟩

/-- The steps properties of a root: the entry of a route, and those of other kinds. -/
theorem Document.mem_rootReading_iff {d : Document} {p : StepsProperty} :
    p ∈ (d.rootReading s).properties ↔
      d.kind = .route ∧ p = ⟨"from", .singleClause⟩ ∨
        d.kind ≠ .route ∧ p ∈ d.rootProperties s := by
  unfold rootReading
  split <;> simp [Reading.properties, *]

theorem Document.rootProperties_cases {d : Document} {p : StepsProperty}
    (h : p ∈ d.rootProperties s) :
    p ∈ s.catalog.stepsProperties d.root ∨ p = ⟨"steps", .branch⟩ := by
  unfold rootProperties at h
  split at h
  · exact .inl h
  · split at h
    · exact .inr (List.mem_singleton.1 h)
    · contradiction

theorem Document.rootSites_eq (d : Document) : d.rootSites s = (d.holder s).sites := by
  unfold rootSites rootRows Holder.sites holder
  cases d.definition? with
  | none => rfl
  | some definition =>
      cases definition with
      | obj fields =>
          simp only [Option.getD_some, rootReading]
          by_cases hk : d.kind = .route
          · rw [if_pos hk, if_pos hk]
            cases hf : Fields.get? "from" fields <;>
              simp [Reading.properties, Holder.sitesUnder, hf, Reading.sitesOf]
          · rw [if_neg hk, if_neg hk, List.flatMap_map]
            rfl
      | null | bool | num | str | arr => rfl

/-! ## Orderly readings -/

/-- The fields that cards are made from. -/
def Card.sources : List String := ["uri", "description", "id"]

/-- The steps properties of a processor that are drawn. -/
def Scheme.properties (s : Scheme) (processor : String) : List StepsProperty :=
  (s.mappers.get processor).properties s.catalog processor

/-- Steps properties can be read one by one. -/
structure Reading.Orderly (s : Scheme) (r : Reading) : Prop where
  /-- No two of them have one name. -/
  nodup : (r.properties.map StepsProperty.name).Nodup
  /-- Cards are made from other fields. -/
  not_source : ∀ p ∈ r.properties, p.name ∉ Card.sources
  /-- A clause is no step, has no clause of its own, and is not called as one of its own
  steps properties. -/
  clause : ∀ p ∈ r.properties, p.kind = .clauseArray → p.name ≠ "steps" ∧
    ∀ q ∈ s.properties p.name, q.kind ≠ .singleClause ∧ q.name ≠ p.name

instance (s : Scheme) (r : Reading) : Decidable (r.Orderly s) :=
  decidable_of_iff ((r.properties.map StepsProperty.name).Nodup ∧
      (∀ p ∈ r.properties, p.name ∉ Card.sources) ∧
      ∀ p ∈ r.properties, p.kind = .clauseArray → p.name ≠ "steps" ∧
        ∀ q ∈ s.properties p.name, q.kind ≠ .singleClause ∧ q.name ≠ p.name)
    ⟨fun h => ⟨h.1, h.2.1, h.2.2⟩, fun h => ⟨h.nodup, h.not_source, h.clause⟩⟩

/-- Every processor is read in an orderly way. -/
structure Scheme.Orderly (s : Scheme) : Prop where
  drawn : ∀ processor, (Reading.declared (s.properties processor)).Orderly s
  declared : ∀ processor, (Reading.declared (s.catalog.stepsProperties processor)).Orderly s

theorem Reading.orderly_nil : (Reading.declared []).Orderly s := by
  constructor <;> simp [Reading.properties]

theorem Site.orderly_holder (hs : s.Orderly) (σ : Site) : (σ.holder s).reading.Orderly s :=
  hs.drawn σ.processor

theorem Document.orderly_holder (hs : s.Orderly) (d : Document) :
    (d.holder s).reading.Orderly s := by
  simp only [holder, rootReading]
  split
  · constructor <;> simp [Reading.properties, Card.sources]
  · unfold rootProperties
    split
    · exact hs.declared d.root
    · split
      · constructor <;> simp [Reading.properties, Card.sources]
      · exact Reading.orderly_nil

/-! ## Sites of an element -/

/-- The site of an element under a steps property that holds an array. -/
def StepsProperty.reading (p : StepsProperty) : Path → Json → List Site :=
  match p.kind with
  | .singleClause => fun _ _ => []
  | .clauseArray => Site.ofClause p.name
  | .branch => Site.ofStep

theorem Site.ofValue_arr {p : StepsProperty} (h : p.kind ≠ .singleClause) (path : Path)
    (items : List Json) : ofValue path p (.arr items) = ofElements p.reading path 0 items := by
  obtain ⟨name, - | - | -⟩ := p
  · contradiction
  · rfl
  · rfl

theorem Site.ofValue_single {p : StepsProperty} (h : p.kind = .singleClause) (path : Path)
    (value : Json) :
    ofValue path p value = if value = .null then [] else [⟨path, p.name, value⟩] := by
  obtain ⟨name, kind⟩ := p
  obtain rfl : kind = .singleClause := h
  cases value <;> simp [ofValue]

namespace StepsProperty

variable {p : StepsProperty} {e : Path} {item : Json} {τ : Site}

/-- How an element comes to have a site: a step is stored under the first key, a clause
under its name, if this is the only key, and else it is the element. -/
inductive Reads (p : StepsProperty) (e : Path) : Json → Site → Prop where
  | step (hk : p.kind = .branch) (key : String) (value : Json) (rest : Fields Json) :
    Reads p e (.obj ((key, value) :: rest)) ⟨e.child key, key, value⟩
  | wrapped (hk : p.kind = .clauseArray) (value : Json) :
    Reads p e (.obj [(p.name, value)]) ⟨e.child p.name, p.name, value⟩
  | bare (hk : p.kind = .clauseArray) (item : Json) (hi : ∀ v, item ≠ .obj [(p.name, v)]) :
    Reads p e item ⟨e, p.name, item⟩

theorem Reads.reading_eq (h : p.Reads e item τ) : p.reading e item = [τ] := by
  cases h with
  | step hk key value rest => simp [reading, hk, Site.ofStep]
  | wrapped hk value => simp [reading, hk, Site.ofClause]
  | bare hk item hi =>
      simp only [reading, hk, Site.ofClause]
      split
      · rename_i key value
        rw [if_neg]
        rintro rfl
        exact hi value rfl
      · rfl

theorem reads_of_mem (h : τ ∈ p.reading e item) : p.Reads e item τ := by
  obtain ⟨name, kind⟩ := p
  cases kind with
  | singleClause => contradiction
  | clauseArray =>
      by_cases hw : ∃ value, item = .obj [(name, value)]
      · obtain ⟨value, rfl⟩ := hw
        have hr := Reads.wrapped (p := ⟨name, .clauseArray⟩) (e := e) rfl value
        rw [hr.reading_eq] at h
        rwa [List.mem_singleton.1 h]
      · have hr := Reads.bare (p := ⟨name, .clauseArray⟩) (e := e) rfl item
          fun v hv => hw ⟨v, hv⟩
        rw [hr.reading_eq] at h
        rwa [List.mem_singleton.1 h]
  | branch =>
      simp only [reading, Site.ofStep] at h
      split at h
      · rw [List.mem_singleton.1 h]
        exact .step rfl _ _ _
      · contradiction

end StepsProperty

/-! ## Sites with another definition -/

namespace Site

/-- The site with another definition. -/
def defining (σ : Site) (definition : Json) : Site := { σ with definition }

/-- A definition that can stand where that of a site is: it is an object and, when the
site is an array element itself, it does not have the name of the site as its only key. -/
def Fits (σ : Site) (definition : Json) : Prop :=
  definition = σ.definition ∨ ∃ fields, definition = .obj fields ∧
    ∀ i, σ.path.last = .index i → ∀ v, fields ≠ [(σ.processor, v)]

@[simp] theorem defining_self (σ : Site) : σ.defining σ.definition = σ := rfl

theorem fits_self (σ : Site) : σ.Fits σ.definition := .inl rfl

end Site

open FlowTree.Json in
/-- The definition of an element's site can be written in the element. -/
theorem StepsProperty.Reads.exists_overwrite {p : StepsProperty} {array : Path} {k : Nat}
    {item : Json} {τ : Site} (h : p.Reads (array.elementAt k) item τ) :
    ∃ rel, τ.path.segments = (array.elementAt k).segments ++ rel ∧
      get? rel item = some τ.definition ∧
      ∀ y, τ.Fits y → p.Reads (array.elementAt k) (overwrite rel y item) (τ.defining y) := by
  cases h with
  | step hk key value rest =>
      refine ⟨[.name key], rfl, by simp [get?, step?, Fields.get?_cons], fun y _ => ?_⟩
      have ho : overwrite [.name key] y (.obj ((key, value) :: rest)) = .obj ((key, y) :: rest) := by
        simp [overwrite, step?, putStep, Fields.get?_cons, Fields.put_cons]
      rw [ho]
      exact .step hk key y rest
  | wrapped hk value =>
      refine ⟨[.name p.name], rfl, by simp [get?, step?, Fields.get?_cons], fun y _ => ?_⟩
      have ho : overwrite [.name p.name] y (.obj [(p.name, value)]) = .obj [(p.name, y)] := by
        simp [overwrite, step?, putStep, Fields.get?_cons, Fields.put_cons]
      rw [ho]
      exact .wrapped hk y
  | bare hk item hi =>
      refine ⟨[], by simp, rfl, fun y hy => ?_⟩
      rcases hy with rfl | ⟨fields, rfl, hf⟩
      · exact .bare hk _ hi
      · refine .bare hk (.obj fields) fun v hv => ?_
        exact hf k (Path.last_elementAt array k) v (Json.obj.inj hv)

namespace Site

variable {reading : Path → Json → List Site} {array : Path}

theorem ofElements_append (i : Nat) (xs ys : List Json) :
    ofElements reading array i (xs ++ ys) =
      ofElements reading array i xs ++ ofElements reading array (i + xs.length) ys := by
  induction xs generalizing i with
  | nil => rfl
  | cons x rest ih =>
      rw [List.cons_append, ofElements, ofElements, ih, List.append_assoc, List.length_cons,
        Nat.add_right_comm, Nat.add_assoc]

end Site

open FlowTree.Json in
/-- The definition of a site can be written in the value that the site is read from, and
leaves the other sites of the value alone. -/
theorem Reading.exists_overwrite {r : Reading} {path : Path} {p : StepsProperty} {value : Json}
    {τ : Site} (h : τ ∈ r.sitesOf path p value) :
    ∃ rel front back, τ.path.segments = path.segments ++ rel ∧
      get? rel value = some τ.definition ∧
      ∀ y, τ.Fits y → r.sitesOf path p (overwrite rel y value) = front ++ τ.defining y :: back := by
  cases r with
  | entry =>
      obtain rfl := List.mem_singleton.1 h
      exact ⟨[], [], [], by simp, rfl, fun _ _ => rfl⟩
  | declared ps =>
      by_cases hk : p.kind = .singleClause
      · -- the value is the definition
        rw [sitesOf, Site.ofValue_single hk] at h
        split at h
        · contradiction
        rename_i hne
        obtain rfl := List.mem_singleton.1 h
        refine ⟨[], [], [], by simp, rfl, fun y hy => ?_⟩
        have hy' : y ≠ .null := by
          rcases hy with rfl | ⟨fields, rfl, -⟩
          · exact hne
          · simp
        rw [sitesOf, overwrite_nil, Site.ofValue_single hk, if_neg hy']
        rfl
      · -- the definition is in one of the elements
        obtain ⟨items, rfl⟩ : ∃ items, value = .arr items := by
          cases value with
          | arr items => exact ⟨items, rfl⟩
          | null | bool | num | str | obj => simp [sitesOf, Site.ofValue, hk] at h
        rw [sitesOf, Site.ofValue_arr hk] at h
        obtain ⟨k, item, hi, hτ⟩ := Site.mem_ofElements.1 h
        rw [Nat.zero_add] at hτ
        obtain ⟨rel, hp, hg, hy⟩ := (StepsProperty.reads_of_mem hτ).exists_overwrite
        have hlt : k < items.length := (List.getElem?_eq_some_iff.1 hi).1
        have hl : (items.take k).length = k := by simp [Nat.le_of_lt hlt]
        refine ⟨.index k :: rel, Site.ofElements p.reading path 0 (items.take k),
          Site.ofElements p.reading path (k + 1) (items.drop (k + 1)), ?_, ?_, fun y hf => ?_⟩
        · rw [hp, segments_elementAt, List.append_assoc]
          rfl
        · rw [get?_cons, step?, hi, Option.bind_some, hg]
        · have ho : overwrite (.index k :: rel) y (.arr items) =
              .arr (items.take k ++ overwrite rel y item :: items.drop (k + 1)) := by
            simp only [overwrite, step?, hi, putStep]
            rw [List.set_eq_take_append_cons_drop, if_pos hlt]
          rw [ho, sitesOf, Site.ofValue_arr hk, Site.ofElements_append, hl, Site.ofElements,
            Nat.zero_add, (hy y hf).reading_eq]
          rfl

/-! ## Sites of a holder -/

theorem Reading.prefix_of_mem_sitesOf {r : Reading} {path : Path} {p : StepsProperty} {value : Json}
    {τ : Site} (h : τ ∈ r.sitesOf path p value) : path.segments <+: τ.path.segments := by
  cases r with
  | entry =>
      obtain rfl := List.mem_singleton.1 h
      exact List.prefix_rfl
  | declared ps => exact Site.prefix_of_mem_ofValue h

namespace Holder

variable {K : Holder}

theorem prefix_of_mem_sitesUnder {fields : Fields Json} {p : StepsProperty} {τ : Site}
    (h : τ ∈ K.sitesUnder fields p) : (K.path.child p.name).segments <+: τ.path.segments := by
  unfold sitesUnder at h
  cases hv : Fields.get? p.name fields with
  | none => simp [hv] at h
  | some value =>
      rw [hv] at h
      exact Reading.prefix_of_mem_sitesOf h

/-- Sites of a holder are stored under keys of its definition. -/
theorem exists_key_of_mem {τ : Site} (h : τ ∈ K.sites) :
    ∃ key, (K.path.child key).segments <+: τ.path.segments := by
  obtain ⟨fields, p, value, -, -, -, hτ⟩ := mem_sites_iff.1 h
  exact ⟨p.name, Reading.prefix_of_mem_sitesOf hτ⟩

/-- The sites under one steps property stand between those under the others, which are apart
from them. -/
theorem exists_sites_around (ho : K.reading.Orderly s) {p : StepsProperty}
    (hp : p ∈ K.reading.properties) (fields : Fields Json) :
    ∃ front back,
      (∀ fields', (∀ key, key ≠ p.name → Fields.get? key fields' = Fields.get? key fields) →
        (K.holding (.obj fields')).sites = front ++ (K.sitesUnder fields' p ++ back)) ∧
      ∀ τ ∈ front ++ back, Apart (K.path.child p.name).segments τ.path.segments := by
  obtain ⟨before, after, hps⟩ := List.append_of_mem hp
  have hother : ∀ q ∈ before ++ after, q.name ≠ p.name := by
    have hn := ho.nodup
    rw [hps, List.map_append, List.map_cons] at hn
    obtain ⟨-, hn, hd⟩ := List.nodup_append.1 hn
    intro q hq
    rcases List.mem_append.1 hq with hq | hq
    · exact hd _ (List.mem_map_of_mem hq) _ List.mem_cons_self
    · exact fun he => (List.nodup_cons.1 hn).1 (he ▸ List.mem_map_of_mem hq)
  have hsame : ∀ fields', (∀ key, key ≠ p.name → Fields.get? key fields' = Fields.get? key fields) →
      ∀ q ∈ before ++ after, K.sitesUnder fields' q = K.sitesUnder fields q :=
    fun fields' hf q hq => by rw [sitesUnder, sitesUnder, hf _ (hother q hq)]
  refine ⟨before.flatMap (K.sitesUnder fields), after.flatMap (K.sitesUnder fields),
    fun fields' hf => ?_, fun τ hτ => ?_⟩
  · have hb : before.flatMap (K.sitesUnder fields') = before.flatMap (K.sitesUnder fields) :=
      List.flatMap_congr fun q hq => hsame fields' hf q (List.mem_append_left after hq)
    have ha : after.flatMap (K.sitesUnder fields') = after.flatMap (K.sitesUnder fields) :=
      List.flatMap_congr fun q hq => hsame fields' hf q (List.mem_append_right before hq)
    rw [sites_holding_obj, hps, List.flatMap_append, List.flatMap_cons, hb, ha]
  · rw [← List.flatMap_append] at hτ
    obtain ⟨q, hq, hτ⟩ := List.mem_flatMap.1 hτ
    have hne : Segment.name p.name ≠ .name q.name := by simpa using (hother q hq).symm
    exact apart_of_steps hne List.prefix_rfl (prefix_of_mem_sitesUnder hτ)

open FlowTree.Json in
/-- The definition of a holder holds those of its sites, where their paths lead. -/
theorem get?_of_mem_sites {τ : Site} (h : τ ∈ K.sites) :
    ∃ rel, τ.path.segments = K.path.segments ++ rel ∧
      get? rel K.definition = some τ.definition := by
  obtain ⟨fields, p, value, hd, -, hv, hτ⟩ := mem_sites_iff.1 h
  obtain ⟨rel, -, -, hpath, hg, -⟩ := Reading.exists_overwrite hτ
  refine ⟨.name p.name :: rel, ?_, ?_⟩
  · rw [hpath, segments_child, List.append_assoc]
    rfl
  · rw [hd, get?_cons, step?, hv, Option.bind_some, hg]

open FlowTree.Json in
/-- A site of a holder with another definition stands in its place between the others. -/
theorem exists_split (ho : K.reading.Orderly s) {τ : Site} (h : τ ∈ K.sites) :
    ∃ p ∈ K.reading.properties, ∃ rel front back,
      τ.path.segments = K.path.segments ++ .name p.name :: rel ∧
      get? (.name p.name :: rel) K.definition = some τ.definition ∧
      ∀ y, τ.Fits y →
        (K.holding (overwrite (.name p.name :: rel) y K.definition)).sites =
          front ++ τ.defining y :: back := by
  obtain ⟨fields, p, value, hd, hp, hv, hτ⟩ := mem_sites_iff.1 h
  obtain ⟨front, back, hsites, -⟩ := exists_sites_around ho hp fields
  obtain ⟨rel, xs, ys, hpath, hg, hy⟩ := Reading.exists_overwrite hτ
  refine ⟨p, hp, rel, front ++ xs, ys ++ back, ?_, ?_, fun y hf => ?_⟩
  · rw [hpath, segments_child, List.append_assoc]
    rfl
  · rw [hd, get?_cons, step?, hv, Option.bind_some, hg]
  · have hw : overwrite (.name p.name :: rel) y K.definition =
        .obj (Fields.put p.name (overwrite rel y value) fields) := by
      simp only [hd, overwrite, step?, hv, putStep]
    rw [hw, hsites _ fun key hne => Fields.get?_put_of_ne (Ne.symm hne) _ _, sitesUnder,
      Fields.get?_put_self, Option.map_some, Option.getD_some, hy y hf]
    simp

/-! ## Sites stand apart -/

end Holder

theorem StepsProperty.prefix_of_mem_reading {p : StepsProperty} {e : Path} {item : Json} {τ : Site}
    (h : τ ∈ p.reading e item) : e.segments <+: τ.path.segments := by
  obtain ⟨name, - | - | -⟩ := p
  · contradiction
  · exact Site.prefix_of_mem_ofClause h
  · exact Site.prefix_of_mem_ofStep h

/-- Two paths leave a third one by different steps: positions, or keys that `P` holds of. -/
inductive Path.Forks (P : String → Prop) (p q : List Segment) : Prop where
  | positions {base : List Segment} {i j : Nat} (hne : i ≠ j) (hp : base ++ [.index i] <+: p)
      (hq : base ++ [.index j] <+: q) : Forks P p q
  | keys {base : List Segment} {a b : String} (hne : a ≠ b) (ha : P a) (hb : P b)
      (hp : base ++ [.name a] <+: p) (hq : base ++ [.name b] <+: q) : Forks P p q

theorem Path.Forks.apart {P : String → Prop} {p q : List Segment} (h : Forks P p q) :
    Apart p q := by
  cases h with
  | positions hne hp hq => exact apart_of_steps (by simpa using hne) hp hq
  | keys hne _ _ hp hq => exact apart_of_steps (by simpa using hne) hp hq

/-- What lies below two paths leaves where they do. -/
theorem Path.Forks.of_below {P : String → Prop} {p q p' q' : List Segment} (h : Forks P p q)
    (hp' : p <+: p') (hq' : q <+: q') : Forks P p' q' := by
  cases h with
  | positions hne hp hq => exact .positions hne (hp.trans hp') (hq.trans hq')
  | keys hne ha hb hp hq => exact .keys hne ha hb (hp.trans hp') (hq.trans hq')

section Forks

variable {P : String → Prop}

/-- Sites of different elements stand at different positions, and an element has no two of
them. -/
theorem StepsProperty.pairwise_ofElements (p : StepsProperty) (array : Path) (i : Nat)
    (items : List Json) :
    (Site.ofElements p.reading array i items).Pairwise
      fun σ τ => Forks P σ.path.segments τ.path.segments := by
  induction items generalizing i with
  | nil => exact .nil
  | cons item rest ih =>
      refine List.pairwise_append.2 ⟨?_, ih (i + 1), fun σ hσ τ hτ => ?_⟩
      · cases h : p.reading (array.elementAt i) item with
        | nil => exact .nil
        | cons σ more =>
            have hσ := (reads_of_mem (h ▸ List.mem_cons_self)).reading_eq
            rw [← h, hσ]
            exact List.pairwise_singleton _ _
      · obtain ⟨k, -, hk⟩ := Site.prefix_of_mem_ofElements prefix_of_mem_reading hτ
        exact .positions (by omega) (prefix_of_mem_reading hσ) hk

theorem Reading.pairwise_sitesOf (r : Reading) (path : Path) (p : StepsProperty) (value : Json) :
    (r.sitesOf path p value).Pairwise fun σ τ => Forks P σ.path.segments τ.path.segments := by
  cases r with
  | entry => exact List.pairwise_singleton _ _
  | declared ps =>
      by_cases hk : p.kind = .singleClause
      · rw [sitesOf, Site.ofValue_single hk]
        split
        · exact .nil
        · exact List.pairwise_singleton _ _
      · cases value with
        | arr items =>
            rw [sitesOf, Site.ofValue_arr hk]
            exact p.pairwise_ofElements path 0 items
        | null | bool | num | str | obj => simp [sitesOf, Site.ofValue, hk]

/-- Sites of a holder stand under different steps properties, or at different positions. -/
theorem Holder.pairwise_forks {K : Holder} (ho : K.reading.Orderly s)
    (hP : ∀ p ∈ K.reading.properties, P p.name) :
    K.sites.Pairwise fun σ τ => Forks P σ.path.segments τ.path.segments := by
  unfold sites
  split
  · rename_i fields hd
    refine List.pairwise_flatMap.2 ⟨fun p hp => ?_, ?_⟩
    · unfold sitesUnder
      cases Fields.get? p.name fields with
      | none => exact .nil
      | some value => exact K.reading.pairwise_sitesOf _ p value
    · have hnames : K.reading.properties.Pairwise fun p q => p.name ≠ q.name :=
        List.pairwise_map.1 ho.nodup
      refine hnames.imp_of_mem fun {p q} hp hq hne σ hσ τ hτ => ?_
      exact .keys hne (hP p hp) (hP q hq) (prefix_of_mem_sitesUnder hσ)
        (prefix_of_mem_sitesUnder hτ)
  · exact .nil

end Forks

/-- Sites of a holder stand apart. -/
theorem Holder.pairwise_apart {K : Holder} (ho : K.reading.Orderly s) :
    K.sites.Pairwise fun σ τ => Apart σ.path.segments τ.path.segments :=
  (K.pairwise_forks (P := fun _ => True) ho fun _ _ => trivial).imp Forks.apart

/-- The other sites of a holder stand apart from each. -/
theorem Holder.apart_of_sites_eq {K : Holder} (ho : K.reading.Orderly s) {σ : Site}
    {front back : List Site} (h : K.sites = front ++ σ :: back) :
    ∀ μ ∈ front ++ back, Apart σ.path.segments μ.path.segments := by
  have ha := K.pairwise_apart ho
  rw [h, List.pairwise_append, List.pairwise_cons] at ha
  intro μ hμ
  rcases List.mem_append.1 hμ with hμ | hμ
  · exact (ha.2.2 μ hμ σ List.mem_cons_self).symm
  · exact ha.2.1.1 μ hμ

end FlowTree
