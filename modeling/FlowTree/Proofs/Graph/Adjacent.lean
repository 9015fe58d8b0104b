import FlowTree.Proofs.Graph.Insertion

/-!
# FlowTree.Proofs.Graph.Adjacent

Putting a step beside a drawn one.

Taking the new element away again gives the document back, so that the entries before the
edit are those after it without the stretch of the element.  What stands around this stretch
is one position further when it stands behind the element in its array.

* `Document.Holds.exists_entries_of_put` — an element is drawn as one stretch of entries
  between those that were there;
* `Graph.entries_insertAdjacent` — so is a step that is put before or behind a drawn one.
-/

namespace FlowTree

open FlowTree.Json FlowTree.Path

/-- Entries off an element come back to where they were. -/
theorem Entry.relocate_spread_retarget {owner : Path} {i : Nat} {e : Entry}
    (h : e.Off (owner.elementAt i).segments) :
    Entry.relocate (·.spread owner i) (Entry.relocate (·.retarget owner i) e) = e := by
  obtain ⟨card, up⟩ := e
  have hup : (up.map (·.retarget owner i)).map (·.spread owner i) = up := by
    cases up with
    | none => rfl
    | some u => exact congrArg some (spread_retarget (h.2 u rfl))
  simp only [Entry.relocate, hup, spread_retarget h.1]

/-! ## New elements -/

namespace Document

variable {s : Scheme} {d : Document} {K : Holder}

/-- A path leads to a branch: an array of steps that a holder has. -/
def IsBranch (s : Scheme) (d : Document) (branch : Path) : Prop :=
  ∃ K p, d.Holds s K ∧ p ∈ K.reading.properties ∧ p.kind = .branch ∧
    branch = K.path.child p.name

/-- An element that is put into an array is drawn as one stretch of entries, between those
that were there. -/
theorem Holds.exists_entries_of_put (hs : s.Orderly) (hK : d.Holds s K) {p : StepsProperty}
    (hp : p ∈ K.reading.properties) (hk : p.kind ≠ .singleClause) {fields : Fields Json}
    (hr : d.resolve K.path = some (.obj fields)) {xs ys : List Json}
    (hv : Fields.get? p.name fields = some (.arr (xs ++ ys))) (x : Json) :
    let owner := K.path.child p.name
    let moved := Entry.relocate (·.spread owner xs.length)
    ∃ front back up,
      (Graph.ofDocument s d).entries = front ++ back ∧
      (Graph.ofDocument s (d.writing owner (.arr (xs ++ x :: ys)))).entries =
        front.map moved ++ ((p.reading (owner.elementAt xs.length) x).flatMap
          (Site.listing s up) ++ back.map moved) := by
  intro owner moved
  have ho := hK.orderly hs
  have hdefinition := hK.definition_of_resolve hr
  let fields' := Fields.put p.name (.arr (xs ++ x :: ys)) fields
  have haccepts : K.Accepts (.obj fields') :=
    K.accepts_put ho hp (by rw [hdefinition]; exact ⟨rfl, rfl⟩) _
  have hnew : Fields.get? p.name fields' = some (.arr (xs ++ x :: ys)) := Fields.get?_put_self ..
  -- the document before is the one after without the element
  have hloses := K.loses_element ho hp hk hnew
    (fun key hne => (Fields.get?_put_of_ne (Ne.symm hne) _ _).symm) (K.sitesUnder_arr hp hk hv)
  rw [← hdefinition] at hr hloses
  obtain ⟨front, back, up, hafter, hbefore, hout⟩ := hK.exists_entries_of_loses hs hr haccepts
    K.accepts_self (prefix_elementAt owner xs.length) (fun q hq => retarget_of_not_below hq) hloses
  rw [writing_self hr] at hbefore
  rw [hdefinition] at hr
  have hback : ∀ es : List Entry, (∀ e ∈ es, e ∈ front ++ back) →
      (es.map (Entry.relocate (·.retarget owner xs.length))).map moved = es := by
    intro es hes
    rw [List.map_map]
    refine (List.map_congr_left fun e he => ?_).trans (List.map_id es)
    exact Entry.relocate_spread_retarget (hout e (hes e he))
  refine ⟨front.map (Entry.relocate (·.retarget owner xs.length)),
    back.map (Entry.relocate (·.retarget owner xs.length)), up, ?_, ?_⟩
  · rw [hbefore, List.map_append]
  · rw [hback front fun e he => List.mem_append_left _ he,
      hback back fun e he => List.mem_append_right _ he, writing_child hr hv, hafter]

/-- A step that is put into a branch is drawn as one stretch of entries, its own first. -/
theorem exists_entries_of_step (hs : s.Orderly) {branch : Path} (h : d.IsBranch s branch)
    {items : List Json} (ha : d.resolve branch = some (.arr items)) {i : Nat}
    (hi : i ≤ items.length) (name : String) (definition : Json) :
    let d' := d.writing branch (.arr (items.take i ++ .obj [(name, definition)] :: items.drop i))
    let element := branch.elementAt i
    let moved := Entry.relocate (·.spread branch i)
    ∃ front back first block,
      (Graph.ofDocument s d).entries = front ++ back ∧
      (Graph.ofDocument s d').entries = front.map moved ++ (first :: block ++ back.map moved) ∧
      first.card = .ofStep s.catalog (element.child name) name definition ∧
      ∀ e ∈ first :: block, element.segments <+: e.card.path.segments := by
  intro d' element moved
  obtain ⟨K, p, hK, hp, hkind, rfl⟩ := h
  obtain ⟨fields, hr, hv⟩ := exists_fields_of_resolve_child ha
  have hk : p.kind ≠ .singleClause := by rw [hkind]; decide
  have hcut : Fields.get? p.name fields = some (.arr (items.take i ++ items.drop i)) := by
    rw [hv, List.take_append_drop]
  have hl : (items.take i).length = i := by simp [hi]
  obtain ⟨front, back, up, hbefore, hafter⟩ :=
    hK.exists_entries_of_put hs hp hk hr hcut (.obj [(name, definition)])
  -- the new element holds one site
  let τ : Site := ⟨element.child name, name, definition⟩
  have hreading : p.reading element (.obj [(name, definition)]) = [τ] :=
    (StepsProperty.Reads.step hkind name definition []).reading_eq
  rw [hl, hreading, List.flatMap_singleton, Site.listing_eq] at hafter
  refine ⟨front, back, _, _, hbefore, hafter, rfl, fun e he => ?_⟩
  rw [← Site.listing_eq] at he
  exact (prefix_child element name).trans (Site.prefix_of_mem_listing he).1

end Document

/-! ## Putting steps beside others -/

/-- The position of a value that is put beside, or in place of, the element at a position. -/
def AdjacentMode.position (mode : AdjacentMode) (i : Nat) : Nat :=
  match mode with
  | .after => i + 1
  | .before | .replace => i

/-- Beside an element, a value goes between those before and those behind its position. -/
theorem Json.spliceItems_eq {mode : AdjacentMode} (h : mode ≠ .replace) (i : Nat) (value : Json)
    (items : List Json) :
    spliceItems mode i value items =
      items.take (mode.position i) ++ value :: items.drop (mode.position i) := by
  cases mode with
  | before | after => rfl
  | replace => contradiction

namespace Graph

/-- **Insertion beside a step.** Before or behind a step that is drawn from a branch any step
is put, and drawn.  The nodes before stay, in order, with their cards and parents, and only
positions of later elements of the branch are one more in their paths; between them stand
the nodes of the new step in one stretch, its own node first.  As no two nodes have one
path, the path of a parent says which node it is. -/
theorem entries_insertAdjacent (d : Document) {n : Node} {i : Nat}
    (hn : (ofDocument Context.builtin.scheme d).get? i = some n) {branch : Path} {k : Nat}
    {key : String} (hbranch : d.IsBranch Context.builtin.scheme branch)
    (hpath : n.card.path = (branch.elementAt k).child key) (name : String) (definition : Json)
    {mode : AdjacentMode} (hmode : mode ≠ .replace) :
    let edited := d.insertAdjacent n.card.path (.obj [(name, definition)]) mode
    let element := branch.elementAt (mode.position k)
    let moved := Entry.relocate (·.spread branch (mode.position k))
    edited.2 = .done .applied ∧
      (∃ front back first block,
        (ofDocument Context.builtin.scheme d).entries = front ++ back ∧
        (ofDocument Context.builtin.scheme edited.1).entries =
          front.map moved ++ (first :: block ++ back.map moved) ∧
        first.card = .ofStep Context.builtin.catalog (element.child name) name definition ∧
        ∀ e ∈ first :: block, element.segments <+: e.card.path.segments) ∧
      ((ofDocument Context.builtin.scheme d).entries.map fun e => e.card.path).Nodup ∧
      ((ofDocument Context.builtin.scheme edited.1).entries.map fun e => e.card.path).Nodup := by
  intro edited element moved
  have hs := Context.orderly_builtin
  -- the element that the step is drawn from is there, and so is its array
  obtain ⟨τ, hτ, -, hτpath, -⟩ := exists_draws_of_child hn hpath
  obtain ⟨stored, hitem, -⟩ := Document.exists_fields_of_resolve_child (hτpath ▸ hτ.resolve)
  obtain ⟨items, harray, hi⟩ := resolve_elementAt_eq_some_iff.1 hitem
  have hlt : k < items.length := (List.getElem?_eq_some_iff.1 hi).1
  have hposition : mode.position k ≤ items.length := by
    cases mode <;> simp only [AdjacentMode.position] <;> omega
  have hedited : edited = (d.writing branch (.arr (items.take (mode.position k) ++
      .obj [(name, definition)] :: items.drop (mode.position k))), .done .applied) := by
    have howning := owningArray_eq_some_iff.2 (.inr ⟨key, hpath⟩)
    simp only [edited, Document.insertAdjacent]
    rw [insertAdjacent_eq_applied howning harray hlt, spliceItems_eq hmode]
    rfl
  rw [hedited]
  exact ⟨rfl, Document.exists_entries_of_step hs hbranch harray hposition name definition,
    nodup_paths hs d, nodup_paths hs _⟩

/-- A step that is put behind the first one of two. -/
theorem entries_insertAdjacent_behind :
    let step (name : String) : Json := .obj [(name, .obj [])]
    let d : Document :=
      ⟨.obj [("onException", .obj [("steps", .arr [step "log", step "stop"])])], "onException"⟩
    let steps := d.rootPath.child "steps"
    let edited := d.insertAdjacent ((steps.elementAt 0).child "log") (step "to") .after
    edited.2 = .done .applied ∧
      ∃ front back first block, (ofDocument Context.builtin.scheme d).entries = front ++ back ∧
        (ofDocument Context.builtin.scheme edited.1).entries =
          front.map (Entry.relocate (·.spread steps 1)) ++
            (first :: block ++ back.map (Entry.relocate (·.spread steps 1))) ∧
        first.card.path = (steps.elementAt 1).child "to" := by
  intro step d steps edited
  obtain ⟨n, hn, hpath⟩ : ∃ n, (ofDocument Context.builtin.scheme d).get? 1 = some n ∧
      n.card.path = (steps.elementAt 0).child "log" :=
    Option.map_eq_some_iff.1 (by decide +kernel)
  have hbranch : d.IsBranch Context.builtin.scheme steps :=
    ⟨d.holder Context.builtin.scheme, ⟨"steps", .branch⟩, .root, by decide +kernel, rfl, rfl⟩
  obtain ⟨happlied, ⟨front, back, first, block, hbefore, hafter, hcard, -⟩, -⟩ :=
    entries_insertAdjacent d hn hbranch hpath "to" (.obj [])
      (by decide : AdjacentMode.after ≠ .replace)
  rw [hpath] at happlied hafter
  exact ⟨happlied, front, back, first, block, hbefore, hafter, congrArg Card.path hcard⟩

end Graph

end FlowTree
