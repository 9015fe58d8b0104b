import FlowTree.Proofs.Graph.Builtin
import FlowTree.Proofs.Graph.Redraw
import FlowTree.Proofs.Tree.Splice

/-!
# FlowTree.Proofs.Graph.Removal

Removing a drawn node.

* `Holder.loses_element`, `Holder.loses_property` — what a holder loses with an element of
  an array, and with a whole steps property;
* `Document.Holds.exists_removal` — removing a site takes it from its holder.
-/

namespace FlowTree

open FlowTree.Json FlowTree.Path

/-! ## Where paths go -/

namespace Path

variable {owner p : Path} {i : Nat}

/-- What is apart from an array stays when the array loses an element. -/
theorem moves_of_apart (h : Apart owner.segments p.segments) : Moves (·.retarget owner i) p := by
  intro q rest hq
  have hne : ¬ owner.segments <+: q.segments := fun ho =>
    h.not_prefix_both ho ⟨rest, hq.symm⟩
  simp only [retarget_of_not_below hne, retarget_of_not_below h.1, hq]

/-- What an element of an array holds moves together when the array loses another one. -/
theorem moves_of_elementAt {j : Nat} (h : (owner.elementAt j).segments <+: p.segments) :
    Moves (·.retarget owner i) p := by
  obtain ⟨below, hb⟩ := h
  have hcut (r : Path) (rest : List Segment)
      (hr : r.segments = owner.segments ++ .index j :: rest) :
      (r.retarget owner i).segments =
        owner.segments ++ .index (if i < j then j - 1 else j) :: rest := by
    rw [segments_retarget, hr, retargetSegments_append_cons_index]
  have hp : p.segments = owner.segments ++ .index j :: below := by simp [← hb]
  intro q rest hq
  simp only [hcut p below hp, hcut q (below ++ rest) (by simp [hq, hp])]
  simp

/-- Elements before the lost one stay with all that they hold. -/
theorem retarget_of_elementAt {j : Nat} (hj : j < i)
    (h : (owner.elementAt j).segments <+: p.segments) : p.retarget owner i = p := by
  obtain ⟨below, hb⟩ := h
  have hm : (p.retarget owner i).segments =
      ((owner.elementAt j).retarget owner i).segments ++ below :=
    moves_of_elementAt (List.prefix_refl (owner.elementAt j).segments) p below hb.symm
  refine eq_of_segments ?_
  rw [hm, retarget_elementAt_self, if_neg (by omega), hb]

end Path

namespace Site

variable {f : Path → Path}

theorem relocate_of_path {σ : Site} (h : f σ.path = σ.path) : σ.relocate f = σ := by
  rw [relocate, h]

theorem map_relocate_of_path {sites : List Site} (h : ∀ σ ∈ sites, f σ.path = σ.path) :
    sites.map (relocate f) = sites :=
  (List.map_congr_left fun σ hσ => relocate_of_path (h σ hσ)).trans (List.map_id sites)

section

variable {p : StepsProperty} {array : Path} {i j : Nat} {items : List Json} {μ : Site}

/-- Elements behind a lost one stand one position earlier, and hold the same sites there. -/
theorem ofElements_map_retarget (h : i ≤ j) (items : List Json) :
    (ofElements p.reading array (j + 1) items).map (relocate (·.retarget array i)) =
      ofElements p.reading array j items := by
  induction items generalizing j with
  | nil => rfl
  | cons item rest ih =>
      have helement : (array.elementAt (j + 1)).retarget array i = array.elementAt j := by
        rw [retarget_elementAt_self, if_pos (by omega), Nat.add_sub_cancel]
      have hchild (key : String) := retarget_child (array.elementAt (j + 1)) array i key
      have hitem : (p.reading (array.elementAt (j + 1)) item).map (relocate (·.retarget array i)) =
          p.reading (array.elementAt j) item := by
        rw [← helement]
        obtain ⟨name, - | - | -⟩ := p
        · rfl
        · exact (ofClause_relocate hchild name item).symm
        · exact (ofStep_relocate hchild item).symm
      rw [ofElements, ofElements, List.map_append, hitem, ih (by omega)]

/-- Elements before a lost one stay. -/
theorem retarget_of_mem_ofElements (hμ : μ ∈ ofElements p.reading array j items)
    (hi : j + items.length ≤ i) : μ.path.retarget array i = μ.path := by
  obtain ⟨k, hk, hpre⟩ := prefix_of_mem_ofElements StepsProperty.prefix_of_mem_reading hμ
  exact retarget_of_elementAt (by omega) hpre

/-- Elements beside a lost one are apart from it, and each moves with all that it holds. -/
theorem beside_of_mem_ofElements (hμ : μ ∈ ofElements p.reading array j items)
    (hi : i < j ∨ j + items.length ≤ i) :
    Apart (array.elementAt i).segments μ.path.segments ∧
      Path.Moves (·.retarget array i) μ.path := by
  obtain ⟨k, hk, hpre⟩ := prefix_of_mem_ofElements StepsProperty.prefix_of_mem_reading hμ
  have hne : Segment.index i ≠ .index (j + k) := fun he => by
    have hik := Segment.index.inj he
    omega
  exact ⟨apart_of_steps hne List.prefix_rfl hpre, moves_of_elementAt hpre⟩

end

end Site

/-! ## What a holder loses -/

namespace Holder

variable {s : Scheme} {K : Holder}

theorem exists_declared {p : StepsProperty} (hp : p ∈ K.reading.properties)
    (hk : p.kind ≠ .singleClause) : ∃ ps, K.reading = .declared ps := by
  cases hr : K.reading with
  | entry =>
      rw [hr] at hp
      obtain rfl := List.mem_singleton.1 hp
      contradiction
  | declared ps => exact ⟨ps, rfl⟩

theorem sitesUnder_arr {p : StepsProperty} (hp : p ∈ K.reading.properties)
    (hk : p.kind ≠ .singleClause) {fields : Fields Json} {items : List Json}
    (hv : Fields.get? p.name fields = some (.arr items)) :
    K.sitesUnder fields p = Site.ofElements p.reading (K.path.child p.name) 0 items := by
  obtain ⟨ps, hr⟩ := exists_declared hp hk
  rw [sitesUnder, hv, Option.map_some, Option.getD_some, hr]
  exact Site.ofValue_arr hk _ _

/-- With an element of an array go the sites in it, and those of later elements stand one
position earlier. -/
theorem loses_element (ho : K.reading.Orderly s) {p : StepsProperty}
    (hp : p ∈ K.reading.properties) (hk : p.kind ≠ .singleClause) {fields fields' : Fields Json}
    {xs ys : List Json} {x : Json}
    (hv : Fields.get? p.name fields = some (.arr (xs ++ x :: ys)))
    (hother : ∀ key, key ≠ p.name → Fields.get? key fields' = Fields.get? key fields)
    (hnew : K.sitesUnder fields' p =
      Site.ofElements p.reading (K.path.child p.name) 0 (xs ++ ys)) :
    Loses (·.retarget (K.path.child p.name) xs.length)
      ((K.path.child p.name).elementAt xs.length)
      (p.reading ((K.path.child p.name).elementAt xs.length) x)
      (K.holding (.obj fields)).sites (K.holding (.obj fields')).sites := by
  obtain ⟨front, back, hsites, hapart⟩ := K.exists_sites_around ho hp fields
  let owner := K.path.child p.name
  let f : Path → Path := (·.retarget owner xs.length)
  let first := Site.ofElements p.reading owner 0 xs
  let later := Site.ofElements p.reading owner (xs.length + 1) ys
  -- other steps properties stay, and so do earlier elements
  have hstay : ∀ μ ∈ front ++ back, f μ.path = μ.path := fun μ hμ =>
    retarget_of_not_below (hapart μ hμ).1
  have hfront : front.map (Site.relocate f) = front :=
    Site.map_relocate_of_path fun μ hμ => hstay μ (List.mem_append_left back hμ)
  have hback : back.map (Site.relocate f) = back :=
    Site.map_relocate_of_path fun μ hμ => hstay μ (List.mem_append_right front hμ)
  have hfirst : first.map (Site.relocate f) = first :=
    Site.map_relocate_of_path fun μ hμ => Site.retarget_of_mem_ofElements hμ (by omega)
  have hlater : later.map (Site.relocate f) = Site.ofElements p.reading owner xs.length ys :=
    Site.ofElements_map_retarget (Nat.le_refl _) ys
  refine ⟨front ++ first, later ++ back, ?_, ?_,
    fun μ hμ => StepsProperty.prefix_of_mem_reading hμ, fun μ hμ => ?_⟩
  · rw [hsites fields fun _ _ => rfl, sitesUnder_arr hp hk hv, Site.ofElements_append,
      Site.ofElements, Nat.zero_add]
    simp [first, later, owner]
  · have hmap : (front ++ first ++ (later ++ back)).map (Site.relocate f) =
        front ++ first ++ (Site.ofElements p.reading owner xs.length ys ++ back) := by
      rw [List.map_append, List.map_append, List.map_append, hfront, hback, hlater, hfirst]
    rw [hsites fields' hother, hnew, Site.ofElements_append, Nat.zero_add]
    refine Eq.trans ?_ hmap.symm
    simp [first, owner]
  · have hbeside (hm : μ ∈ front ++ back) :
        Apart (owner.elementAt xs.length).segments μ.path.segments ∧ Path.Moves f μ.path :=
      ⟨(hapart μ hm).of_below (prefix_elementAt owner _), moves_of_apart (hapart μ hm)⟩
    simp only [List.mem_append] at hμ hbeside
    rcases hμ with (hμ | hμ) | hμ | hμ
    · exact hbeside (.inl hμ)
    · exact Site.beside_of_mem_ofElements hμ (.inr (by omega))
    · exact Site.beside_of_mem_ofElements hμ (.inl (by omega))
    · exact hbeside (.inr hμ)

/-- With a steps property go the sites under it. -/
theorem loses_property (ho : K.reading.Orderly s) {p : StepsProperty}
    (hp : p ∈ K.reading.properties) {fields fields' : Fields Json}
    (hother : ∀ key, key ≠ p.name → Fields.get? key fields' = Fields.get? key fields)
    (hnew : K.sitesUnder fields' p = []) :
    Loses id (K.path.child p.name) (K.sitesUnder fields p) (K.holding (.obj fields)).sites
      (K.holding (.obj fields')).sites := by
  obtain ⟨front, back, hsites, hapart⟩ := K.exists_sites_around ho hp fields
  refine ⟨front, back, hsites fields fun _ _ => rfl, ?_,
    fun μ hμ => prefix_of_mem_sitesUnder hμ, fun μ hμ => ⟨hapart μ hμ, fun q rest hq => hq⟩⟩
  rw [hsites fields' hother, hnew, List.nil_append]
  exact (Site.map_relocate_of_path fun _ _ => rfl).symm

end Holder

/-! ## Removing a site -/

namespace Path

/-- What goes from a document when the node at a path is removed: the array element that
the path addresses, else the node itself. -/
def location (p : Path) : Path := p.element?.getD p

/-- Where a path leads when the node at `p` was removed. -/
def closing (p q : Path) : Path :=
  match p.owningArray with
  | some (owner, i) => q.retarget owner i
  | none => q

theorem location_of_owningArray {owner p : Path} {i : Nat}
    (h : p.owningArray = some (owner, i)) : p.location = owner.elementAt i := by
  rw [location, element?, h]
  rfl

theorem closing_of_owningArray {owner p : Path} {i : Nat}
    (h : p.owningArray = some (owner, i)) : p.closing = (·.retarget owner i) := by
  funext q
  rw [closing, h]

end Path

/-- The path of a site in an element stands for the element. -/
theorem StepsProperty.Reads.owningArray {p : StepsProperty} {owner : Path} {i : Nat}
    {item : Json} {τ : Site} (h : p.Reads (owner.elementAt i) item τ) :
    τ.path.owningArray = some (owner, i) := by
  cases h with
  | step _ key => exact owningArray_child_elementAt owner i key
  | wrapped => exact owningArray_child_elementAt owner i p.name
  | bare => exact owningArray_elementAt owner i

namespace Document

variable {s : Scheme} {d : Document} {K : Holder}

/-- A holder with a single clause is no array element. -/
theorem Holds.last_of_singleClause (hs : s.Orderly) (hK : d.Holds s K) {p : StepsProperty}
    (hp : p ∈ K.reading.properties) (hk : p.kind = .singleClause) :
    ∃ name, K.path.last = .name name := by
  cases hK with
  | root => exact ⟨d.root, rfl⟩
  | @under K σ hK hσ =>
      rcases K.last_cases hσ with hn | ⟨q, hq, i, hc, hname, -⟩
      · exact ⟨σ.processor, hn⟩
      · refine absurd hk (((hK.orderly hs).clause q hq hc).2 p ?_).1
        rw [← hname]
        exact hp

/-- A value goes under a key of a holder by writing the definition of the holder. -/
theorem writing_child {fields : Fields Json} {old : Json} {key : String}
    (hr : d.resolve K.path = some (.obj fields)) (hv : Fields.get? key fields = some old)
    (value : Json) :
    d.writing (K.path.child key) value = d.writing K.path (.obj (Fields.put key value fields)) := by
  have ho : overwrite [.name key] value (.obj fields) = .obj (Fields.put key value fields) := by
    simp only [overwrite, step?, hv, putStep]
  rw [writing_append (segments_child K.path key) hr, ho]

/-- An element that holds a site is removed by the path of the site. -/
theorem remove_of_reads {p : StepsProperty} {owner : Path} {i : Nat} {item : Json} {τ : Site}
    (h : p.Reads (owner.elementAt i) item τ) (hi : d.resolve (owner.elementAt i) = some item)
    (hone : ∀ key, τ.path = (owner.elementAt i).child key → ∃ field, item = .obj [field]) :
    d.value.remove τ.path = .applied (d.value.without owner i) := by
  cases h with
  | step hk key value rest =>
      obtain ⟨field, hf⟩ := hone key rfl
      obtain ⟨-, rfl⟩ := List.cons_eq_cons.1 (Json.obj.inj hf)
      exact remove_child_elementAt hi
  | wrapped => exact remove_child_elementAt hi
  | bare => exact remove_elementAt hi

/-- Removing the node at a path is writing a definition of a holder, which changes nothing
but the field of a key and loses what was removed. -/
structure Removes (d : Document) (K : Holder) (path : Path) (definition : Json) (key : String) :
    Prop where
  accepts : K.Accepts definition
  remove_eq : d.remove path = (d.writing K.path definition, .done .applied)
  below : (K.path.child key).segments <+: path.location.segments
  closing_eq : ∀ q : Path, ¬ (K.path.child key).segments <+: q.segments → path.closing q = q
  loses : ∃ gone, Loses path.closing path.location gone K.sites (K.holding definition).sites

/-- A clause goes with the key it is stored under. -/
theorem removes_child {p : StepsProperty} {fields : Fields Json} {name : String}
    (ho : K.reading.Orderly s) (hp : p ∈ K.reading.properties)
    (hr : d.resolve K.path = some K.definition) (hd : K.definition = .obj fields)
    (hl : K.path.last = .name name) (hhas : Fields.has p.name fields = true) :
    d.Removes K (K.path.child p.name) (.obj (Fields.drop p.name fields)) p.name := by
  have hnone : (K.path.child p.name).owningArray = none := owningArray_child_of_last hl p.name
  have hclosing : (K.path.child p.name).closing = id := by
    funext q
    rw [closing, hnone]
    rfl
  have hlocation : (K.path.child p.name).location = K.path.child p.name := by
    rw [location, element?, hnone]
    rfl
  have hsame (key : String) (hne : key ≠ p.name) :
      Fields.get? key (Fields.drop p.name fields) = Fields.get? key fields :=
    Fields.get?_drop_of_ne (Ne.symm hne) fields
  have hgone : K.sitesUnder (Fields.drop p.name fields) p = [] := by
    rw [Holder.sitesUnder, Fields.get?_drop_self]
    rfl
  constructor
  case accepts =>
    refine .inr ⟨?_, _, rfl, fun i hi => ?_⟩
    · rw [hd]
      exact Card.alike_obj fun key hkey => hsame key fun he => ho.not_source p hp (he ▸ hkey)
    · rw [hl] at hi
      contradiction
  case remove_eq =>
    rw [hd] at hr
    rw [remove, remove_child hl hr hhas]
    rfl
  case below => exact ⟨[], by rw [List.append_nil, hlocation]⟩
  case closing_eq => exact fun q _ => congrFun hclosing q
  case loses =>
    have hloses := K.loses_property ho hp hsame hgone
    rw [← hd] at hloses
    rw [hclosing, hlocation]
    exact ⟨_, hloses⟩

/-- A step, or a clause of an array, goes with the element it stands in. -/
theorem removes_element {p : StepsProperty} {fields : Fields Json} {items : List Json} {i : Nat}
    {item : Json} {τ : Site} (ho : K.reading.Orderly s) (hp : p ∈ K.reading.properties)
    (hk : p.kind ≠ .singleClause) (hr : d.resolve K.path = some K.definition)
    (hd : K.definition = .obj fields) (hv : Fields.get? p.name fields = some (.arr items))
    (hi : items[i]? = some item) (hτ : p.Reads ((K.path.child p.name).elementAt i) item τ)
    (hone : ∀ key, τ.path = ((K.path.child p.name).elementAt i).child key →
      ∃ field, d.resolve ((K.path.child p.name).elementAt i) = some (.obj [field])) :
    d.Removes K τ.path (.obj (Fields.put p.name (.arr (items.eraseIdx i)) fields)) p.name := by
  let owner := K.path.child p.name
  have hlt : i < items.length := (List.getElem?_eq_some_iff.1 hi).1
  have hl : (items.take i).length = i := by simp [Nat.le_of_lt hlt]
  rw [hd] at hr
  have howner : d.value.resolve owner = some (.arr items) := by
    rw [Document.resolve, Json.resolve] at hr
    rw [Json.resolve, segments_child, get?_append, hr, Option.bind_some, get?_cons, step?, hv]
    rfl
  have htail : τ.path.owningArray = some (owner, i) := hτ.owningArray
  constructor
  case accepts => exact K.accepts_put ho hp (by rw [hd]; exact ⟨rfl, rfl⟩) _
  case remove_eq =>
    have helement := resolve_elementAt_eq_some_iff.2 ⟨items, howner, hi⟩
    have hitem (key : String) (hkey : τ.path = (owner.elementAt i).child key) :
        ∃ field, item = .obj [field] := by
      obtain ⟨field, hf⟩ := hone key hkey
      exact ⟨field, Option.some.inj (helement.symm.trans hf)⟩
    rw [← writing_child hr hv, remove, remove_of_reads hτ helement hitem,
      without_eq_overwrite howner]
    rfl
  case below =>
    rw [location_of_owningArray htail]
    exact prefix_elementAt owner i
  case closing_eq =>
    intro q hq
    rw [closing_of_owningArray htail]
    exact retarget_of_not_below hq
  case loses =>
    have hcut : items.take i ++ item :: items.drop (i + 1) = items := by
      rw [← (List.getElem?_eq_some_iff.1 hi).2, List.getElem_cons_drop, List.take_append_drop]
    have hloses := @Holder.loses_element s K ho p hp hk fields
      (Fields.put p.name (.arr (items.eraseIdx i)) fields) (items.take i) (items.drop (i + 1)) item
      (by rw [hcut, hv]) (fun key hne => Fields.get?_put_of_ne (Ne.symm hne) _ _)
      (by rw [← List.eraseIdx_eq_take_drop_succ]; exact K.sitesUnder_arr hp hk (by simp))
    rw [hl, ← hd] at hloses
    rw [closing_of_owningArray htail, location_of_owningArray htail]
    exact ⟨_, hloses⟩

/-- Removing a site is writing the definition of its holder, which loses what was removed. -/
theorem Holds.exists_removes (hs : s.Orderly) (hK : d.Holds s K) {τ : Site} (hτ : τ ∈ K.sites)
    (hone : ∀ (array : Path) i key, τ.path = (array.elementAt i).child key →
      ∃ field, d.resolve (array.elementAt i) = some (.obj [field])) :
    ∃ definition key, d.Removes K τ.path definition key := by
  have ho := hK.orderly hs
  have hr := hK.resolve_of_ne_nil (List.ne_nil_of_mem hτ)
  obtain ⟨fields, hd, p, hp, ⟨hk, hhas, hpath, -⟩ | ⟨hk, items, i, item, hv, hi, hreads⟩⟩ :=
    K.place_cases hτ
  · obtain ⟨name, hl⟩ := hK.last_of_singleClause hs hp hk
    rw [hpath]
    exact ⟨_, _, removes_child ho hp hr hd hl hhas⟩
  · exact ⟨_, _, removes_element ho hp hk hr hd hv hi hreads fun key => hone _ i key⟩

end Document

namespace Graph

/-- Removing the step of a drawn node takes from a graph the entries at and below what was
removed. -/
theorem entries_remove_of_draws {s : Scheme} (hs : s.Orderly) {d : Document} {τ : Site}
    (hτ : d.Draws s τ)
    (hone : ∀ (array : Path) k key, τ.path = (array.elementAt k).child key →
      ∃ field, d.resolve (array.elementAt k) = some (.obj [field])) :
    (d.remove τ.path).2 = .done .applied ∧
      (ofDocument s (d.remove τ.path).1).entries =
        (Entry.without τ.path.location (ofDocument s d).entries).map
          (Entry.relocate τ.path.closing) := by
  obtain ⟨K, hK, hmem⟩ := hτ
  have hr := hK.resolve_of_ne_nil (List.ne_nil_of_mem hmem)
  obtain ⟨definition, key, hrem⟩ := hK.exists_removes hs hmem hone
  obtain ⟨gone, hloses⟩ := hrem.loses
  have hentries := hK.entries_eq_of_loses hs hr K.accepts_self hrem.accepts hrem.below
    hrem.closing_eq hloses
  rw [Document.writing_self hr] at hentries
  rw [hrem.remove_eq]
  exact ⟨rfl, hentries⟩

/-- **Removal.** Removing a node other than the root is carried out, when the array element
that it is a property of is nothing but that property.  The graph loses the nodes at and
below what was removed; all others stay, in order, with their cards and parents, and only
positions of later elements of the same array are one less in their paths.  As no two
nodes have one path, the path of a parent says which node it is. -/
theorem entries_remove (d : Document) {n : Node} {i : Nat}
    (hn : (ofDocument Context.builtin.scheme d).get? i = some n) (hi : i ≠ 0)
    (hone : ∀ (array : Path) k key, n.card.path = (array.elementAt k).child key →
      ∃ field, d.resolve (array.elementAt k) = some (.obj [field])) :
    let d' := (d.remove n.card.path).1
    (d.remove n.card.path).2 = .done .applied ∧
      (ofDocument Context.builtin.scheme d').entries =
        (Entry.without n.card.path.location (ofDocument Context.builtin.scheme d).entries).map
          (Entry.relocate n.card.path.closing) ∧
      ((ofDocument Context.builtin.scheme d).entries.map fun e => e.card.path).Nodup ∧
      ((ofDocument Context.builtin.scheme d').entries.map fun e => e.card.path).Nodup := by
  intro d'
  have hs := Context.orderly_builtin
  obtain ⟨τ, hτ, hcard⟩ := exists_draws hn hi
  have hpath : n.card.path = τ.path := by
    rw [hcard]
    rfl
  have hremove := entries_remove_of_draws hs hτ fun array k key he =>
    hone array k key (hpath.trans he)
  rw [← hpath] at hremove
  exact ⟨hremove.1, hremove.2, nodup_paths hs d, nodup_paths hs d'⟩

/-- Removing the first step of a branch shifts the others. -/
theorem entries_remove_first :
    let step (name : String) : Json := .obj [(name, .obj [])]
    let d : Document :=
      ⟨.obj [("onException", .obj [("steps", .arr [step "log", step "stop"])])], "onException"⟩
    let steps := d.rootPath.child "steps"
    let d' := (d.remove ((steps.elementAt 0).child "log")).1
    (ofDocument Context.builtin.scheme d').entries.map (fun e => (e.card.path, e.up)) =
      [(d.rootPath, none), ((steps.elementAt 0).child "stop", some d.rootPath)] := by
  intro step d steps d'
  obtain ⟨n, hn⟩ : ∃ n, (ofDocument Context.builtin.scheme d).get? 1 = some n :=
    Option.isSome_iff_exists.1 (by decide +kernel)
  have hpath : n.card.path = (steps.elementAt 0).child "log" := by
    have h : ((ofDocument Context.builtin.scheme d).get? 1).map (fun n => n.card.path) =
        some ((steps.elementAt 0).child "log") := by decide +kernel
    rw [hn] at h
    exact Option.some.inj h
  have hone (array : Path) (k : Nat) (key : String)
      (h : n.card.path = (array.elementAt k).child key) :
      ∃ field, d.resolve (array.elementAt k) = some (.obj [field]) := by
    have hs : (array.elementAt k).segments = (steps.elementAt 0).segments := by
      rw [hpath] at h
      exact (List.append_inj' (congrArg segments h) rfl).1.symm
    rw [eq_of_segments hs]
    exact ⟨("log", .obj []), by decide +kernel⟩
  have hentries := (entries_remove d hn (by decide) hone).2.1
  rw [hpath] at hentries
  rw [hentries]
  decide +kernel

end Graph

end FlowTree
