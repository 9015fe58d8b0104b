import FlowTree.Proofs.Graph.Listing

/-!
# FlowTree.Proofs.Graph.Redraw

What a graph shows after the definition of one holder was written.

The entries of the sites below the holder stand in one stretch of the entries of the
document.  Writing the definition changes that stretch and nothing before or behind it,
so an edit is understood by what it does to the sites of one holder.

* `Document.Holds`, `Document.Draws` — the holders and the sites of a document;
* `Document.Holds.exists_frame` — the entries around those below a holder;
* `Graph.pairwise_told`, `Graph.eq_of_path` — paths tell nodes apart;
* `Loses`, `Document.Holds.exists_entries_of_loses`, `Document.Holds.entries_eq_of_loses` — a
  holder that loses the sites under one path takes exactly their entries out of the document.
-/

namespace FlowTree

open FlowTree.Json FlowTree.Path

/-! ## Definitions with one card -/

/-- Cards are made alike from two definitions. -/
def Card.Alike (first second : Json) : Prop :=
  uri? second = uri? first ∧ ownLabel? second = ownLabel? first

theorem Card.ofStep_eq_of_alike {first second : Json} (h : Alike first second) (catalog : Catalog)
    (path : Path) (processor : String) :
    ofStep catalog path processor second = ofStep catalog path processor first := by
  have hc : component? processor second = component? processor first := by
    rw [component?, component?, h.1]
  simp only [ofStep, hc, h.2]

theorem Card.alike_obj {fields fields' : Fields Json}
    (h : ∀ key ∈ sources, Fields.get? key fields' = Fields.get? key fields) :
    Alike (.obj fields) (.obj fields') := by
  simp only [Alike, uri?, ownLabel?, field?]
  rw [h "uri" (by simp [sources]), h "description" (by simp [sources]),
    h "id" (by simp [sources])]
  exact ⟨rfl, rfl⟩

/-- Writing under a key changes one field. -/
theorem Json.overwrite_name_cons {key : String} {rel : List Segment} {doc old : Json}
    (h : get? (.name key :: rel) doc = some old) (value : Json) :
    ∃ fields child, doc = .obj fields ∧
      overwrite (.name key :: rel) value doc =
        .obj (Fields.put key (overwrite rel value child) fields) := by
  rw [get?_cons] at h
  obtain ⟨child, hc, -⟩ := Option.bind_eq_some_iff.1 h
  cases doc with
  | obj fields => exact ⟨fields, child, rfl, by simp only [overwrite, hc, putStep]⟩
  | null | bool | num | str | arr => contradiction

/-- A field that is written is there. -/
theorem Fields.eq_of_put_eq_singleton {α : Type} {key other : String} {value v : α}
    {fields : Fields α} (h : Fields.put key value fields = [(other, v)]) : other = key := by
  have hm : Fields.get? key [(other, v)] = some value := by rw [← h, Fields.get?_put_self]
  rw [Fields.get?_cons] at hm
  split at hm
  · assumption
  · contradiction

/-! ## Writing definitions -/

namespace Holder

variable {s : Scheme} {K : Holder}

/-- A definition that a holder can have in place of its own: an object from which cards
are made alike and, when the holder is an array element itself, without a key of another
name than a steps property as its only one. -/
def Accepts (K : Holder) (definition : Json) : Prop :=
  definition = K.definition ∨ Card.Alike K.definition definition ∧
    ∃ fields, definition = .obj fields ∧ ∀ i, K.path.last = .index i →
      ∀ key v, fields = [(key, v)] → ∃ p ∈ K.reading.properties, key = p.name

theorem accepts_self (K : Holder) : K.Accepts K.definition := .inl rfl

theorem Accepts.alike {definition : Json} (h : K.Accepts definition) :
    Card.Alike K.definition definition := by
  rcases h with rfl | ⟨h, -⟩
  · exact ⟨rfl, rfl⟩
  · exact h

/-- A steps property can be written. -/
theorem accepts_put {fields : Fields Json} {p : StepsProperty} (ho : K.reading.Orderly s)
    (hp : p ∈ K.reading.properties) (hd : Card.Alike K.definition (.obj fields)) (value : Json) :
    K.Accepts (.obj (Fields.put p.name value fields)) := by
  refine .inr ⟨?_, _, rfl, fun _ _ key v hv => ⟨p, hp, Fields.eq_of_put_eq_singleton hv⟩⟩
  have ha : Card.Alike (.obj fields) (.obj (Fields.put p.name value fields)) :=
    Card.alike_obj fun key hk => Fields.get?_put_of_ne
      (fun he : p.name = key => ho.not_source p hp (he ▸ hk)) _ _
  exact ⟨ha.1.trans hd.1, ha.2.trans hd.2⟩

/-- A site stands under the key of a steps property, or in an element of the array there. -/
theorem place_cases {τ : Site} (h : τ ∈ K.sites) :
    ∃ fields, K.definition = .obj fields ∧ ∃ p ∈ K.reading.properties,
      (p.kind = .singleClause ∧ Fields.has p.name fields = true ∧
        τ.path = K.path.child p.name ∧ τ.processor = p.name) ∨
      p.kind ≠ .singleClause ∧ ∃ items k item, Fields.get? p.name fields = some (.arr items) ∧
        items[k]? = some item ∧ p.Reads ((K.path.child p.name).elementAt k) item τ := by
  obtain ⟨fields, p, value, hd, hp, hv, hτ⟩ := mem_sites_iff.1 h
  have hhas : Fields.has p.name fields = true := by
    rw [Fields.has, hv]
    rfl
  refine ⟨fields, hd, p, hp, ?_⟩
  cases hr : K.reading with
  | entry =>
      rw [hr] at hτ hp
      obtain rfl := List.mem_singleton.1 hp
      obtain rfl := List.mem_singleton.1 hτ
      exact .inl ⟨rfl, hhas, rfl, rfl⟩
  | declared ps =>
      rw [hr, Reading.sitesOf] at hτ
      by_cases hk : p.kind = .singleClause
      · rw [Site.ofValue_single hk] at hτ
        split at hτ
        · contradiction
        · obtain rfl := List.mem_singleton.1 hτ
          exact .inl ⟨hk, hhas, rfl, rfl⟩
      · cases value with
        | arr items =>
            rw [Site.ofValue_arr hk] at hτ
            obtain ⟨k, item, hi, hτ⟩ := Site.mem_ofElements.1 hτ
            rw [Nat.zero_add] at hτ
            exact .inr ⟨hk, items, k, item, hv, hi, StepsProperty.reads_of_mem hτ⟩
        | null | bool | num | str | obj => simp [Site.ofValue, hk] at hτ

/-- The path of a site ends in its processor, unless the site is a clause that is an
array element. -/
theorem last_cases {τ : Site} (h : τ ∈ K.sites) :
    τ.path.last = .name τ.processor ∨
      ∃ p ∈ K.reading.properties, ∃ i, p.kind = .clauseArray ∧ τ.processor = p.name ∧
        τ.path = (K.path.child p.name).elementAt i := by
  obtain ⟨fields, -, p, hp, ⟨-, -, hpath, hname⟩ | ⟨-, items, k, item, -, -, hτ⟩⟩ := place_cases h
  · rw [hpath, hname]
    exact .inl (last_child _ _)
  · cases hτ with
    | step | wrapped => exact .inl (last_child _ _)
    | bare hc => exact .inr ⟨p, hp, k, hc, rfl, rfl⟩

/-- What a drawn site accepts as a holder can stand in its place. -/
theorem fits_of_accepts (ho : K.reading.Orderly s) {σ : Site} (hσ : σ ∈ K.sites)
    {definition : Json} (h : (σ.holder s).Accepts definition) : σ.Fits definition := by
  rcases h with rfl | ⟨-, fields, rfl, hf⟩
  · exact .inl rfl
  · refine .inr ⟨fields, rfl, fun i hi v hv => ?_⟩
    rcases last_cases hσ with hn | ⟨p, hp, -, hk, hname, -⟩
    · rw [hn] at hi
      contradiction
    · obtain ⟨q, hq, he⟩ := hf i hi _ _ hv
      rw [hname] at he
      refine ((ho.clause p hp hk).2 q ?_).2 he.symm
      rw [← hname]
      exact hq

end Holder

namespace Document

variable {s : Scheme} {d : Document} {K : Holder}

/-- The document with a definition written at a path. -/
def writing (d : Document) (path : Path) (definition : Json) : Document :=
  { d with value := overwrite path.segments definition d.value }

theorem writing_self {path : Path} {definition : Json} (h : d.resolve path = some definition) :
    d.writing path definition = d := by
  rw [writing, overwrite_of_get? h]

/-- The holders in a document: its root, and the sites of its holders. -/
inductive Holds (s : Scheme) (d : Document) : Holder → Prop where
  | root : Holds s d (d.holder s)
  | under {K : Holder} {σ : Site} (hK : Holds s d K) (hσ : σ ∈ K.sites) : Holds s d (σ.holder s)

/-- The sites in a document. -/
def Draws (s : Scheme) (d : Document) (τ : Site) : Prop := ∃ K, d.Holds s K ∧ τ ∈ K.sites

theorem Holds.orderly (hs : s.Orderly) (h : d.Holds s K) : K.reading.Orderly s := by
  cases h with
  | root => exact d.orderly_holder hs
  | under => exact Site.orderly_holder hs _

/-- The definition of a holder that holds something is in the document. -/
theorem Holds.resolve_of_ne_nil (h : d.Holds s K) (hne : K.sites ≠ []) :
    d.resolve K.path = some K.definition := by
  induction h with
  | root => exact resolve_holder hne
  | under hK hσ ih => exact resolve_of_mem_sites (ih (List.ne_nil_of_mem hσ)) hσ

/-- The definition of a site is in the document. -/
theorem Draws.resolve {τ : Site} (h : d.Draws s τ) :
    d.resolve τ.path = some τ.definition := by
  obtain ⟨K, hK, hτ⟩ := h
  exact resolve_of_mem_sites (hK.resolve_of_ne_nil (List.ne_nil_of_mem hτ)) hτ

/-- The path of a site is longer than that of the root. -/
theorem Draws.isRootPath_eq_false {τ : Site} (h : d.Draws s τ) : d.isRootPath τ.path = false := by
  obtain ⟨K, -, hτ⟩ := h
  obtain ⟨key, hbelow⟩ := K.exists_key_of_mem hτ
  have hlong := hbelow.length_le
  have habove : 0 < K.path.segments.length := List.length_pos_iff.2 K.path.nonempty
  rw [segments_child, List.length_append, List.length_singleton] at hlong
  rw [isRootPath, beq_eq_false_iff_ne]
  intro heq
  rw [heq, List.length_singleton] at hlong
  omega

/-- No site stands at the root. -/
theorem Draws.path_ne_rootPath {τ : Site} (h : d.Draws s τ) : τ.path ≠ d.rootPath := by
  intro heq
  have hroot := h.isRootPath_eq_false
  rw [heq, show d.isRootPath d.rootPath = true from beq_self_eq_true _] at hroot
  contradiction

end Document

/-! ## Entries off a path -/

/-- Neither the path of an entry nor that of its parent is, or lies below, the given one. -/
def Entry.Off (p : List Segment) (e : Entry) : Prop :=
  ¬ p <+: e.card.path.segments ∧ ∀ u, e.up = some u → ¬ p <+: u.segments

theorem Entry.Off.of_below {p q : List Segment} {e : Entry} (h : e.Off p) (hpq : p <+: q) :
    e.Off q :=
  ⟨fun hq => h.1 (hpq.trans hq), fun u hu hq => h.2 u hu (hpq.trans hq)⟩

/-- Entries of a site are off every path that is apart from that of the site. -/
theorem Site.off_of_mem_listing {s : Scheme} {μ : Site} {up : Option Path} {e : Entry}
    {p : List Segment} (he : e ∈ μ.listing s up) (ha : Apart p μ.path.segments)
    (hup : ∀ u, up = some u → ¬ p <+: u.segments) : e.Off p := by
  have hapart {q : List Segment} (hq : μ.path.segments <+: q) : ¬ p <+: q := fun hp =>
    ha.not_prefix_both hp hq
  obtain ⟨hp, hu⟩ := prefix_of_mem_listing he
  refine ⟨hapart hp, fun u heu => ?_⟩
  rcases hu with hu | ⟨v, hv, hp⟩
  · exact hup u (hu.symm.trans heu)
  · obtain rfl := Option.some.inj (hv.symm.trans heu)
    exact hapart hp

/-- The entries of a site with a definition that it accepts as a holder. -/
theorem Site.listing_defining {s : Scheme} {σ : Site} {definition : Json}
    (h : (σ.holder s).Accepts definition) (up : Option Path) :
    (σ.defining definition).listing s up =
      ⟨σ.card s, up⟩ :: ((σ.holder s).holding definition).sites.flatMap
        (listing s (σ.upBelow s up)) := by
  have hcard : (σ.defining definition).card s = σ.card s :=
    Card.ofStep_eq_of_alike h.alike _ _ _
  have hbelow : (σ.defining definition).below s = ((σ.holder s).holding definition).sites :=
    below_eq (σ.defining definition)
  rw [listing_eq, hcard, hbelow]
  rfl

theorem Path.not_prefix_of_child (p : Path) (key : String) :
    ¬ (p.child key).segments <+: p.segments := fun h => by
  have hl := h.length_le
  rw [segments_child, List.length_append, List.length_singleton] at hl
  omega

/-- What a holder shows beside one of its sites, and the entry of the site itself, are off
everything below the site. -/
theorem Holder.off_below_site {s : Scheme} {K : Holder} (ho : K.reading.Orderly s) {σ : Site}
    {front back : List Site} (h : K.sites = front ++ σ :: back) {up : Option Path} {key : String}
    (hup : ∀ u, up = some u → ¬ (σ.path.child key).segments <+: u.segments) :
    (∀ e ∈ front.flatMap (Site.listing s up), e.Off (σ.path.child key).segments) ∧
      (∀ e ∈ back.flatMap (Site.listing s up), e.Off (σ.path.child key).segments) ∧
      Entry.Off (σ.path.child key).segments ⟨σ.card s, up⟩ := by
  have hbeside : ∀ μ ∈ front ++ back, ∀ e ∈ μ.listing s up, e.Off (σ.path.child key).segments :=
    fun μ hμ e he => Site.off_of_mem_listing he
      ((K.apart_of_sites_eq ho h μ hμ).of_below (prefix_child σ.path key)) hup
  refine ⟨fun e he => ?_, fun e he => ?_, not_prefix_of_child σ.path key, hup⟩
  · obtain ⟨μ, hμ, he⟩ := List.mem_flatMap.1 he
    exact hbeside μ (List.mem_append_left _ hμ) e he
  · obtain ⟨μ, hμ, he⟩ := List.mem_flatMap.1 he
    exact hbeside μ (List.mem_append_right _ hμ) e he

namespace Document

variable {s : Scheme} {d : Document} {K : Holder}

/-- The root of a document whose definition is another one holds as the definition says. -/
theorem holder_writing_rootPath {definition old : Json} (h : d.definition? = some old) :
    (d.writing d.rootPath definition).holder s = (d.holder s).holding definition := by
  have hr : d.resolve d.rootPath = some old := by rw [resolve_rootPath, h]
  have hd : (d.writing d.rootPath definition).definition? = some definition := by
    rw [← resolve_rootPath]
    exact get?_overwrite_self definition hr
  rw [holder, hd]
  rfl

/-- What the root shows stays when cards are made alike. -/
theorem entries_writing_rootPath {definition : Json}
    (hr : d.resolve d.rootPath = some (d.holder s).definition)
    (ha : Card.Alike (d.holder s).definition definition) :
    (Graph.ofDocument s (d.writing d.rootPath definition)).entries =
      ⟨.ofEntity s.catalog d.root d.kind d.definition?, none⟩ ::
        ((d.holder s).holding definition).sites.flatMap (Site.listing s (some d.rootPath)) := by
  have hd : d.definition? = some (d.holder s).definition := by rw [← resolve_rootPath, hr]
  have hcard : Card.ofEntity s.catalog d.root d.kind (some definition) =
      .ofEntity s.catalog d.root d.kind d.definition? := by
    rw [hd, Card.ofEntity, Card.ofEntity, Option.bind_some, Option.bind_some, ha.2]
  have hnew : (d.writing d.rootPath definition).definition? = some definition := by
    rw [← resolve_rootPath]
    exact get?_overwrite_self definition hr
  rw [Graph.entries_ofDocument, rootSites_eq, holder_writing_rootPath hd, hnew, ← hcard]
  rfl

/-- A definition is written below a holder by writing that of the holder. -/
theorem writing_append {path above : Path} {rel : List Segment} {definition old : Json}
    (hp : path.segments = above.segments ++ rel) (h : d.resolve above = some old) :
    d.writing path definition = d.writing above (overwrite rel definition old) := by
  rw [writing, writing, hp, overwrite_eq_modify, modify_append, modify_of_get? _ h,
    ← overwrite_eq_modify]

/-- The entries below a holder stand in one stretch of those of the document, also when
its definition is another one; what stands around it is the same. -/
theorem Holds.exists_frame (hs : s.Orderly) (h : d.Holds s K)
    (hr : d.resolve K.path = some K.definition) :
    ∃ front back up,
      (∀ definition, K.Accepts definition →
        (Graph.ofDocument s (d.writing K.path definition)).entries =
          front ++ ((K.holding definition).sites.flatMap (Site.listing s up) ++ back)) ∧
      (∀ e ∈ front ++ back, ∀ key, e.Off (K.path.child key).segments) ∧
      ∀ u, up = some u → ∀ key, ¬ (K.path.child key).segments <+: u.segments := by
  induction h with
  | root =>
      refine ⟨[⟨.ofEntity s.catalog d.root d.kind d.definition?, none⟩], [], some d.rootPath,
        fun definition ha => ?_, fun e he key => ?_, fun u hu key => ?_⟩
      · rw [List.append_nil]
        exact entries_writing_rootPath hr ha.alike
      · rw [List.append_nil] at he
        rw [List.mem_singleton.1 he]
        exact ⟨not_prefix_of_child d.rootPath key, fun u hu => by contradiction⟩
      · rw [← Option.some.inj hu]
        exact not_prefix_of_child d.rootPath key
  | @under K σ hK hσ ih =>
      have ho := hK.orderly hs
      have hd := hK.resolve_of_ne_nil (List.ne_nil_of_mem hσ)
      obtain ⟨front, back, up, hentries, hoff, hup⟩ := ih hd
      obtain ⟨p, hp, rel, xs, ys, hpath, hg, hsplit⟩ := K.exists_split ho hσ
      -- the path of the site lies below the steps property that it is read from
      have hbelow (key : String) :
          (K.path.child p.name).segments <+: (σ.path.child key).segments := by
        rw [segments_child, segments_child, hpath]
        exact ⟨rel ++ [.name key], by simp⟩
      have hsites : K.sites = xs ++ σ :: ys := by
        have h := hsplit _ σ.fits_self
        rwa [overwrite_of_get? hg, Site.defining_self] at h
      refine ⟨front ++ (xs.flatMap (Site.listing s up) ++ [⟨σ.card s, up⟩]),
        ys.flatMap (Site.listing s up) ++ back, σ.upBelow s up, fun definition ha => ?_,
        fun e he key => ?_, fun u hu key => ?_⟩
      · have hfits : σ.Fits definition := K.fits_of_accepts ho hσ ha
        have haccepts : K.Accepts (overwrite (.name p.name :: rel) definition K.definition) := by
          obtain ⟨fields, child, hf, hw⟩ := overwrite_name_cons hg definition
          rw [hw]
          exact K.accepts_put ho hp (by rw [hf]; exact ⟨rfl, rfl⟩) _
        rw [Site.holder, writing_append hpath hd, hentries _ haccepts, hsplit _ hfits,
          List.flatMap_append, List.flatMap_cons, Site.listing_defining ha]
        simp [Site.holder]
      · have hout : ∀ e ∈ front ++ back, e.Off (σ.path.child key).segments := fun e he =>
          (hoff e he p.name).of_below (hbelow key)
        obtain ⟨hxs, hys, hself⟩ := K.off_below_site ho hsites
          fun u hu h => hup u hu p.name ((hbelow key).trans h)
        simp only [List.mem_append, List.mem_singleton] at he hout
        rcases he with (he | he | rfl) | he | he
        · exact hout e (.inl he)
        · exact hxs e he
        · exact hself
        · exact hys e he
        · exact hout e (.inr he)
      · rcases σ.upBelow_cases s up with h | h <;> rw [h] at hu
        · exact fun h => hup u hu p.name ((hbelow key).trans h)
        · rw [← Option.some.inj hu]
          exact not_prefix_of_child σ.path key

/-- The sites of a written definition are drawn. -/
theorem Holds.exists_entry (hs : s.Orderly) (h : d.Holds s K)
    (hr : d.resolve K.path = some K.definition) {definition : Json} (ha : K.Accepts definition)
    {τ : Site} (hτ : τ ∈ (K.holding definition).sites) :
    ∃ e ∈ (Graph.ofDocument s (d.writing K.path definition)).entries, e.card = τ.card s := by
  obtain ⟨front, back, up, hframe, -, -⟩ := h.exists_frame hs hr
  have hown : ⟨τ.card s, up⟩ ∈ Site.listing s up τ := by
    rw [Site.listing_eq]
    exact List.mem_cons_self
  refine ⟨⟨τ.card s, up⟩, ?_, rfl⟩
  rw [hframe _ ha]
  exact List.mem_append_right _ (List.mem_append_left _ (List.mem_flatMap.2 ⟨τ, hτ, hown⟩))

end Document

/-! ## Nodes of a document -/

/-- What shows below a holder is what sites of the document show. -/
theorem Document.Holds.exists_draws {s : Scheme} {d : Document} {K : Holder} (hK : d.Holds s K)
    {σ : Site} (hσ : σ ∈ K.sites) {up : Option Path} {e : Entry} (he : e ∈ σ.listing s up) :
    ∃ τ, d.Draws s τ ∧ e.card = τ.card s := by
  induction σ using Site.induction (s := s) generalizing K up with
  | step σ ih =>
      rw [Site.listing_eq] at he
      rcases List.mem_cons.1 he with rfl | he
      · exact ⟨σ, ⟨K, hK, hσ⟩, rfl⟩
      · obtain ⟨τ, hτ, he⟩ := List.mem_flatMap.1 he
        have hτ' : τ ∈ (σ.holder s).sites := by rwa [← Site.below_eq]
        exact ih τ hτ (hK.under hσ) hτ' he

/-- Two paths are told apart: the first lies above the second, or they leave a third one. -/
def Path.Told (P : String → Prop) (p q : List Segment) : Prop := (p <+: q ∧ p ≠ q) ∨ Forks P p q

theorem Path.Told.ne {P : String → Prop} {p q : List Segment} (h : Told P p q) : p ≠ q := by
  rintro rfl
  rcases h with ⟨-, hne⟩ | hf
  · exact hne rfl
  · exact hf.apart.1 List.prefix_rfl

section Told

variable {P : String → Prop}

/-- Below a holder the paths of entries are told apart from each other and from that of the
holder, when this is so below each of its sites. -/
theorem Holder.pairwise_told {s : Scheme} {K : Holder} (ho : K.reading.Orderly s)
    (hP : ∀ p ∈ K.reading.properties, P p.name) {up : Option Path}
    (h : ∀ τ ∈ K.sites, ((τ.listing s up).map fun e => e.card.path.segments).Pairwise (Told P)) :
    (K.path.segments :: (K.sites.flatMap (Site.listing s up)).map
      fun e => e.card.path.segments).Pairwise (Told P) := by
  have hunder {τ : Site} {e : Entry} (he : e ∈ τ.listing s up) :
      τ.path.segments <+: e.card.path.segments := (Site.prefix_of_mem_listing he).1
  rw [List.map_flatMap, List.pairwise_cons]
  constructor
  · intro p hp
    obtain ⟨τ, hτ, hp⟩ := List.mem_flatMap.1 hp
    obtain ⟨e, he, rfl⟩ := List.mem_map.1 hp
    obtain ⟨key, hk⟩ := K.exists_key_of_mem hτ
    have hlow := hk.trans (hunder he)
    refine .inl ⟨(prefix_child K.path key).trans hlow, fun heq => ?_⟩
    rw [← heq] at hlow
    exact Path.not_prefix_of_child K.path key hlow
  · refine List.pairwise_flatMap.2 ⟨h, (K.pairwise_forks ho hP).imp ?_⟩
    intro τ υ hf p hp q hq
    obtain ⟨e, he, rfl⟩ := List.mem_map.1 hp
    obtain ⟨e', he', rfl⟩ := List.mem_map.1 hq
    exact .inr (hf.of_below (hunder he) (hunder he'))

theorem Site.pairwise_told {s : Scheme} (hs : s.Orderly)
    (hP : ∀ processor, ∀ p ∈ s.properties processor, P p.name) (σ : Site) (up : Option Path) :
    ((σ.listing s up).map fun e => e.card.path.segments).Pairwise (Told P) := by
  induction σ using induction (s := s) generalizing up with
  | step σ ih =>
      have hbelow := below_eq (s := s) σ
      rw [listing_eq, hbelow, List.map_cons]
      exact (σ.holder s).pairwise_told (σ.orderly_holder hs) (hP σ.processor)
        fun τ hτ => ih τ (hbelow ▸ hτ) _

end Told

namespace Graph

variable {s : Scheme} {d : Document}

/-- Every node but the root shows a site of the document. -/
theorem exists_draws {n : Node} {i : Nat} (hn : (ofDocument s d).get? i = some n) (hi : i ≠ 0) :
    ∃ τ, d.Draws s τ ∧ n.card = τ.card s := by
  have he : (ofDocument s d).entries[i]? = some ((ofDocument s d).entryOf n) := by
    rw [entries, List.getElem?_map]
    exact congrArg _ hn
  obtain ⟨i, rfl⟩ := Nat.exists_eq_add_one_of_ne_zero hi
  rw [entries_ofDocument, List.getElem?_cons_succ, Document.rootSites_eq] at he
  obtain ⟨σ, hσ, he⟩ := List.mem_flatMap.1 (List.mem_of_getElem? he)
  exact Document.Holds.root.exists_draws hσ he

/-- The paths of nodes are told apart by positions and by names of steps properties. -/
theorem pairwise_told {P : String → Prop} (hs : s.Orderly)
    (hP : ∀ processor, ∀ p ∈ s.properties processor, P p.name)
    (hroot : ∀ p ∈ (d.holder s).reading.properties, P p.name) :
    ((ofDocument s d).entries.map fun e => e.card.path.segments).Pairwise (Told P) := by
  rw [entries_ofDocument, Document.rootSites_eq]
  exact (d.holder s).pairwise_told (d.orderly_holder hs) hroot
    fun τ _ => τ.pairwise_told hs hP _

/-- No two nodes have one path. -/
theorem nodup_paths (hs : s.Orderly) (d : Document) :
    ((ofDocument s d).entries.map fun e => e.card.path).Nodup := by
  have htold := pairwise_told (P := fun _ => True) (d := d) hs (fun _ _ _ => trivial)
    fun _ _ => trivial
  rw [List.pairwise_map] at htold
  exact List.pairwise_map.2 (htold.imp fun h heq => h.ne (congrArg Path.segments heq))

/-- A node is the only one at its path. -/
theorem eq_of_path (hs : s.Orderly) {n m : Node} {i j : Nat}
    (hn : (ofDocument s d).get? i = some n)
    (hm : (ofDocument s d).get? j = some m) (h : n.card.path = m.card.path) : i = j := by
  have hnodup := nodup_paths hs d
  rw [entries, List.map_map] at hnodup
  have hpath {n : Node} {i : Nat} (hn : (ofDocument s d).nodes[i]? = some n) :
      ((ofDocument s d).nodes.map fun n => n.card.path)[i]? = some n.card.path := by
    rw [List.getElem?_map, hn, Option.map_some]
  have hi := hpath hn
  have hlt := (List.getElem?_eq_some_iff.1 hi).1
  refine (List.getElem?_inj hlt hnodup).1 (hi.trans ?_)
  rw [h]
  exact (hpath hm).symm

end Graph

/-! ## Losing sites -/

/-- New sites are the old ones less those that are gone, which stand at and below a path, and
where `f` moves what is left to. -/
def Loses (f : Path → Path) (lost : Path) (gone old new : List Site) : Prop :=
  ∃ front back, old = front ++ (gone ++ back) ∧
    new = (front ++ back).map (Site.relocate f) ∧
    (∀ μ ∈ gone, lost.segments <+: μ.path.segments) ∧
    ∀ μ ∈ front ++ back, Apart lost.segments μ.path.segments ∧ Path.Moves f μ.path

/-- When what is left stands where it stood, nothing moves. -/
theorem Loses.of_stay {f : Path → Path} {lost : Path} {gone old new : List Site}
    (h : Loses f lost gone old new)
    (hf : ∀ μ ∈ old, ¬ lost.segments <+: μ.path.segments → f μ.path = μ.path) :
    Loses id lost gone old new := by
  obtain ⟨front, back, rfl, rfl, hgone, hkept⟩ := h
  refine ⟨front, back, rfl, List.map_congr_left fun μ hμ => ?_, hgone,
    fun μ hμ => ⟨(hkept μ hμ).1, fun _ _ hq => hq⟩⟩
  have hold : μ ∈ front ++ (gone ++ back) := by
    simp only [List.mem_append] at hμ ⊢
    exact hμ.imp_right .inr
  rw [Site.relocate, Site.relocate, hf μ hold (hkept μ hμ).1.1]
  rfl

/-- The entries without those at and below a path. -/
def Entry.without (lost : Path) (es : List Entry) : List Entry :=
  es.filter fun e => !e.card.path.startsWith lost

theorem Entry.without_of_off {lost : Path} {es : List Entry}
    (h : ∀ e ∈ es, ¬ lost.segments <+: e.card.path.segments) : without lost es = es :=
  List.filter_eq_self.2 fun e he => by
    have := mt startsWith_iff.1 (h e he)
    simpa using this

theorem Entry.without_of_below {lost : Path} {es : List Entry}
    (h : ∀ e ∈ es, lost.segments <+: e.card.path.segments) : without lost es = [] :=
  List.filter_eq_nil_iff.2 fun e he => by simp [startsWith_iff.2 (h e he)]

/-- What sites that are gone show lies where they stood. -/
theorem Loses.below {s : Scheme} {f : Path → Path} {lost : Path} {gone old new : List Site}
    (h : Loses f lost gone old new) {up : Option Path} {e : Entry}
    (he : e ∈ gone.flatMap (Site.listing s up)) : lost.segments <+: e.card.path.segments := by
  obtain ⟨front, back, -, -, hgone, -⟩ := h
  obtain ⟨μ, hμ, he⟩ := List.mem_flatMap.1 he
  exact (hgone μ hμ).trans (Site.prefix_of_mem_listing he).1

/-- What sites that are gone showed was one stretch, and what is left shows what it showed
before, moved. -/
theorem Loses.exists_listing {s : Scheme} {f : Path → Path} {lost : Path}
    {gone old new : List Site} (h : Loses f lost gone old new) {up : Option Path}
    (hup : up.map f = up) (hoff : ∀ u, up = some u → ¬ lost.segments <+: u.segments) :
    ∃ front back,
      old.flatMap (Site.listing s up) =
        front ++ (gone.flatMap (Site.listing s up) ++ back) ∧
      new.flatMap (Site.listing s up) = (front ++ back).map (Entry.relocate f) ∧
      ∀ e ∈ front ++ back, e.Off lost.segments := by
  obtain ⟨front, back, rfl, rfl, -, hkept⟩ := h
  refine ⟨front.flatMap (Site.listing s up), back.flatMap (Site.listing s up), by simp, ?_,
    fun e he => ?_⟩
  · rw [← List.flatMap_append, List.flatMap_map, List.map_flatMap]
    refine List.flatMap_congr fun μ hμ => ?_
    have h := Site.listing_relocate (s := s) (hkept μ hμ).2 up
    rwa [hup] at h
  · rw [← List.flatMap_append] at he
    obtain ⟨μ, hμ, he⟩ := List.mem_flatMap.1 he
    exact Site.off_of_mem_listing he (hkept μ hμ).1 hoff

/-- When the holder at a path loses the sites under a path below one of its keys, the
document loses the stretch of their entries, and all that is not below the key stays where
it is. -/
theorem Document.Holds.exists_entries_of_loses {s : Scheme} (hs : s.Orderly) {d : Document}
    {K : Holder} (hK : d.Holds s K) (hr : d.resolve K.path = some K.definition)
    {first second : Json} (h₁ : K.Accepts first) (h₂ : K.Accepts second) {key : String}
    {lost : Path} {f : Path → Path} (hlost : (K.path.child key).segments <+: lost.segments)
    (hf : ∀ q, ¬ (K.path.child key).segments <+: q.segments → f q = q) {gone : List Site}
    (h : Loses f lost gone (K.holding first).sites (K.holding second).sites) :
    ∃ front back up,
      (Graph.ofDocument s (d.writing K.path first)).entries =
        front ++ (gone.flatMap (Site.listing s up) ++ back) ∧
      (Graph.ofDocument s (d.writing K.path second)).entries =
        (front ++ back).map (Entry.relocate f) ∧
      ∀ e ∈ front ++ back, e.Off lost.segments := by
  obtain ⟨before, after, up, hentries, hoff, hup⟩ := hK.exists_frame hs hr
  have hstay {q : Option Path}
      (hq : ∀ u, q = some u → ¬ (K.path.child key).segments <+: u.segments) :
      q.map f = q := by
    cases q with
    | none => rfl
    | some u => exact congrArg some (hf u (hq u rfl))
  have hkept : ∀ es : List Entry, (∀ e ∈ es, e ∈ before ++ after) →
      es.map (Entry.relocate f) = es := by
    intro es hes
    refine (List.map_congr_left fun e he => ?_).trans (List.map_id es)
    have ho := hoff e (hes e he) key
    simp only [Entry.relocate, hstay ho.2, hf _ ho.1, id]
  obtain ⟨front, back, hold, hnew, hout⟩ := h.exists_listing (s := s)
    (hstay fun u hu => hup u hu key) fun u hu hl => hup u hu key (hlost.trans hl)
  refine ⟨before ++ front, back ++ after, up, ?_, ?_, fun e he => ?_⟩
  · rw [hentries _ h₁, hold]
    simp
  · rw [hentries _ h₂, hnew]
    simp only [List.map_append, List.append_assoc]
    rw [hkept before fun e he => List.mem_append_left _ he,
      hkept after fun e he => List.mem_append_right _ he]
  · simp only [List.mem_append] at he hoff hout
    rcases he with (he | he) | he | he
    · exact (hoff e (.inl he) key).of_below hlost
    · exact hout e (.inl he)
    · exact hout e (.inr he)
    · exact (hoff e (.inr he) key).of_below hlost

/-- So the document loses the entries at and below the path, and no others. -/
theorem Document.Holds.entries_eq_of_loses {s : Scheme} (hs : s.Orderly) {d : Document}
    {K : Holder} (hK : d.Holds s K) (hr : d.resolve K.path = some K.definition)
    {first second : Json} (h₁ : K.Accepts first) (h₂ : K.Accepts second) {key : String}
    {lost : Path} {f : Path → Path} (hlost : (K.path.child key).segments <+: lost.segments)
    (hf : ∀ q, ¬ (K.path.child key).segments <+: q.segments → f q = q) {gone : List Site}
    (h : Loses f lost gone (K.holding first).sites (K.holding second).sites) :
    (Graph.ofDocument s (d.writing K.path second)).entries =
      (Entry.without lost (Graph.ofDocument s (d.writing K.path first)).entries).map
        (Entry.relocate f) := by
  obtain ⟨front, back, up, hfirst, hsecond, hout⟩ :=
    hK.exists_entries_of_loses hs hr h₁ h₂ hlost hf h
  have hgone : Entry.without lost (gone.flatMap (Site.listing s up)) = [] :=
    Entry.without_of_below fun e he => h.below he
  have hkept : Entry.without lost (front ++ back) = front ++ back :=
    Entry.without_of_off fun e he => (hout e he).1
  rw [hfirst, hsecond]
  simp only [Entry.without, List.filter_append] at hgone hkept ⊢
  rw [hgone, List.nil_append, hkept]

end FlowTree
