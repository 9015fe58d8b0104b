import FlowTree.Proofs.Document.AllOrNothing

/-!
# FlowTree.Proofs.Document.Stale

Edits at paths that lead nowhere.

A path that leads nowhere stands for no element of an array, or for one that is
missing (`Lost`), or for one that is there without the key that the path ends in
(`Outdated`): another step has taken the place of the one that was meant.

* `remove_of_resolve_eq_none` — a removal looks for the whole path;
* `insertAdjacent_skipped_iff`, `insertAdjacent_applied_iff` — an insertion beside an
  element looks for the element alone;
* `moveStep_skipped_iff_lost` — so does a move, for both of its ends;
* `stale_edits_skipped_iff` — when each edit of a document is skipped.
-/

namespace FlowTree

open FlowTree.Path

namespace Json

/-! ## Stale paths -/

/-- The element that a path stands for is missing. -/
def Lost (doc : Json) (path : Path) : Prop :=
  ∃ element, path.element? = some element ∧ doc.resolve element = none

/-- A path leads nowhere although the element that it stands for is there. -/
def Outdated (doc : Json) (path : Path) : Prop :=
  doc.resolve path = none ∧
    ∃ element node, path.element? = some element ∧ doc.resolve element = some node

/-- A stale path stands for no element, or is lost, or outdated. -/
theorem stale_cases {doc : Json} {path : Path} (h : doc.resolve path = none) :
    path.element? = none ∨ doc.Lost path ∨ doc.Outdated path := by
  cases he : path.element? with
  | none => exact .inl rfl
  | some element =>
      cases hn : doc.resolve element with
      | none => exact .inr (.inl ⟨element, he, hn⟩)
      | some node => exact .inr (.inr ⟨h, element, node, he, hn⟩)

/-! ## Removals -/

/-- An edit of the node above a path that leads nowhere is skipped, when it needs what
the path asks for. -/
theorem editAt_ancestor_eq_skipped {doc : Json} {path : Path} {front back : List Segment}
    {f : Json → Option Json} (h : doc.resolve path = none)
    (hp : path.segments = front ++ back)
    (hf : ∀ node, get? back node = none → f node = none) :
    doc.editAt (path.ancestor back.length) f = .skipped doc := by
  cases hq : path.ancestor back.length with
  | none => rfl
  | some q =>
      obtain ⟨rest, hl, hs⟩ := ancestor_eq_some_iff.1 hq
      obtain ⟨hfront, rfl⟩ := List.append_inj' (hs.symm.trans hp) hl
      rw [resolve, hs, get?_append] at h
      rw [editAt, resolve]
      cases hn : get? q.segments doc with
      | none => rfl
      | some node =>
          rw [hn, Option.bind_some] at h
          rw [Option.bind_some, hf node h]

theorem spliceOut_of_get?_eq_none {i : Nat} {node : Json} (h : get? [.index i] node = none) :
    spliceOut i node = none := by
  cases node with
  | arr items =>
      have hi : items.length ≤ i := by simpa [get?, step?] using h
      rw [spliceOut, if_neg (by omega)]
  | null | bool | num | str | obj => rfl

theorem dropProperty_of_get?_eq_none {key : String} {node : Json}
    (h : get? [.name key] node = none) : dropProperty key node = none := by
  cases node with
  | obj fields =>
      have hk : Fields.get? key fields = none := by simpa [get?, step?] using h
      simp [dropProperty, Fields.has, hk]
  | null | bool | num | str | arr => rfl

theorem spliceOutProperty_of_get?_eq_none {i : Nat} {key : String} {node : Json}
    (h : get? [.index i, .name key] node = none) : spliceOutProperty i key node = none := by
  cases node with
  | arr items =>
      cases hi : items[i]? with
      | none => simp [spliceOutProperty, hi]
      | some element =>
          have he : get? [.name key] element = none := by simpa [get?_cons, step?, hi] using h
          cases element with
          | obj fields =>
              have hk : Fields.get? key fields = none := by simpa [get?, step?] using he
              simp [spliceOutProperty, hi, Fields.has, hk, dropProperty_of_get?_eq_none he]
          | null | bool | num | str | arr => simp [spliceOutProperty, hi]
  | null | bool | num | str | obj => rfl

/-- A removal looks for the whole path. -/
theorem remove_of_resolve_eq_none {doc : Json} {path : Path} (h : doc.resolve path = none)
    (hp : path.isRoot = false) : doc.remove path = .skipped doc := by
  cases ht : path.tail with
  | root =>
      rw [tail_eq_root_iff.1 ht] at hp
      contradiction
  | arrayElement i =>
      obtain ⟨front, hs⟩ := eq_of_tail_arrayElement ht
      simp only [remove, ht]
      exact editAt_ancestor_eq_skipped h hs fun _ => spliceOut_of_get?_eq_none
  | indexedProperty i =>
      obtain ⟨front, key, hs⟩ := eq_of_tail_indexedProperty ht
      have hl : path.last = .name key := by simp [last, hs]
      simp only [remove, ht, hl]
      exact editAt_ancestor_eq_skipped h hs fun _ => spliceOutProperty_of_get?_eq_none
  | objectProperty =>
      obtain ⟨front, outer, key, hs⟩ := eq_of_tail_objectProperty ht
      have hl : path.last = .name key := by simp [last, hs]
      have hs' : path.segments = (front ++ [.name outer]) ++ [.name key] := by simp [hs]
      simp only [remove, ht, hl]
      exact editAt_ancestor_eq_skipped h hs' fun _ => dropProperty_of_get?_eq_none

/-- The removal of a root is refused, whether it is there or not. -/
theorem remove_of_isRoot {path : Path} (hp : path.isRoot = true) (doc : Json) :
    doc.remove path = .refused doc (.rootRemoval path) := by
  rw [remove, tail_eq_root_iff.2 hp]

/-! ## Insertions beside an element -/

theorem insertAdjacent_of_element?_eq_none {path : Path} (h : path.element? = none)
    (doc value : Json) (mode : AdjacentMode) :
    doc.insertAdjacent path value mode = .refused doc (.unsupportedTail path) := by
  rw [insertAdjacent, owningArray_of_element?_eq_none h]

theorem spliceIn_of_get?_eq_none {i : Nat} {node : Json} (h : get? [.index i] node = none)
    (mode : AdjacentMode) (value : Json) : spliceIn mode i value node = none := by
  cases node with
  | arr items =>
      have hi : items.length ≤ i := by simpa [get?, step?] using h
      rw [spliceIn, if_neg (by omega)]
  | null | bool | num | str | obj => rfl

/-- Beside an element that is missing nothing is put. -/
theorem insertAdjacent_of_lost {doc : Json} {path : Path} (h : doc.Lost path) (value : Json)
    (mode : AdjacentMode) : doc.insertAdjacent path value mode = .skipped doc := by
  obtain ⟨element, he, hn⟩ := h
  obtain ⟨owner, i, ho, rfl⟩ := exists_owningArray_of_element? he
  rw [insertAdjacent_of_owningArray ho, ← ancestor_one_elementAt owner i]
  exact editAt_ancestor_eq_skipped hn (segments_elementAt owner i) fun _ hnode =>
    spliceIn_of_get?_eq_none hnode mode value

/-- Beside an element that is there a value is put, whatever the path has after it. -/
theorem insertAdjacent_of_resolve {doc node : Json} {path element : Path}
    (he : path.element? = some element) (hn : doc.resolve element = some node) (value : Json)
    (mode : AdjacentMode) : (doc.insertAdjacent path value mode).verdict = .done .applied := by
  obtain ⟨owner, i, ho, rfl⟩ := exists_owningArray_of_element? he
  obtain ⟨items, ha, hi⟩ := resolve_elementAt_eq_some_iff.1 hn
  rw [insertAdjacent_eq_applied ho ha (List.getElem?_eq_some_iff.1 hi).1]
  rfl

/-- An insertion is skipped when its element is missing, and only then. -/
theorem insertAdjacent_skipped_iff {doc : Json} {path : Path} (h : doc.resolve path = none)
    (value : Json) (mode : AdjacentMode) :
    doc.insertAdjacent path value mode = .skipped doc ↔ doc.Lost path := by
  refine ⟨fun hs => ?_, fun hl => insertAdjacent_of_lost hl value mode⟩
  rcases stale_cases h with he | hl | ⟨-, element, node, he, hn⟩
  · rw [insertAdjacent_of_element?_eq_none he] at hs
    have hv := congrArg Edited.verdict hs
    simp at hv
  · exact hl
  · have hv := insertAdjacent_of_resolve he hn value mode
    rw [hs] at hv
    simp at hv

/-- At a stale path an insertion is carried out when its element is there. -/
theorem insertAdjacent_applied_iff {doc : Json} {path : Path} (h : doc.resolve path = none)
    (value : Json) (mode : AdjacentMode) :
    (doc.insertAdjacent path value mode).verdict = .done .applied ↔ doc.Outdated path := by
  constructor
  · intro hv
    rcases stale_cases h with he | hl | ho
    · rw [insertAdjacent_of_element?_eq_none he] at hv
      simp at hv
    · rw [insertAdjacent_of_lost hl] at hv
      simp at hv
    · exact ho
  · rintro ⟨-, element, node, he, hn⟩
    exact insertAdjacent_of_resolve he hn value mode

/-- A replacement at a stale path is skipped unless the element is there. -/
theorem replace_skipped_iff {doc : Json} {path : Path} (h : doc.resolve path = none)
    (value : Json) : doc.replace path value = .skipped doc ↔ ¬ doc.Outdated path := by
  cases ho : path.owningArray with
  | none =>
      have hn : ¬ doc.Outdated path := by
        rintro ⟨-, element, node, he, -⟩
        rw [element?, ho] at he
        contradiction
      simp [replace, ho, editAt, h, hn]
  | some found =>
      have he : path.element? ≠ none := by simp [element?, ho]
      rw [replace_of_owningArray ho, insertAdjacent_skipped_iff h]
      constructor
      · rintro ⟨element, hl, hn⟩ ⟨-, other, node, hother, hnode⟩
        rw [hl] at hother
        rw [Option.some.inj hother, hnode] at hn
        contradiction
      · intro hn
        rcases stale_cases h with hnone | hl | hout
        · exact absurd hnone he
        · exact hl
        · exact absurd hout hn

/-! ## Moves -/

/-- Two ends that stand for elements keep a move from being carried out when they
stand for the same one, or one of the two is missing. -/
theorem not_movable_iff {doc : Json} {source target s t : Path} (hs : source.element? = some s)
    (ht : target.element? = some t) :
    ¬ Movable doc source target ↔
      source.element? = target.element? ∨ doc.Lost source ∨ doc.Lost target := by
  have hlost {path element : Path} (he : path.element? = some element) :
      doc.Lost path ↔ doc.resolve element = none := by
    simp [Lost, he]
  have hmove : Movable doc source target ↔
      s ≠ t ∧ (doc.resolve s).isSome = true ∧ (doc.resolve t).isSome = true := by
    simp [Movable, hs, ht]
  rw [hmove, hlost hs, hlost ht, hs, ht, Option.some.injEq]
  simp only [← Option.not_isSome_iff_eq_none]
  by_cases h : s = t
  · simp [h]
  · cases (doc.resolve s).isSome <;> simp [h]

/-- A move that its two paths do not refuse is skipped when they stand for one
element, or for one that is missing. -/
theorem moveStep_skipped_iff_lost {doc : Json} {source target : Path} {mode : AdjacentMode} :
    doc.moveStep source target mode = .skipped doc ↔
      (∀ error, ¬ MoveRefusal source target error) ∧
        (source.element? = target.element? ∨ doc.Lost source ∨ doc.Lost target) := by
  have hv : doc.moveStep source target mode = .skipped doc ↔
      (doc.moveStep source target mode).verdict = .done .skipped := by
    refine ⟨fun h => by rw [h]; rfl, fun h => ?_⟩
    rcases moveStep_cases doc source target mode with
      ⟨error, -, he⟩ | ⟨-, -, he⟩ | ⟨-, -, result, he⟩ <;> rw [he] at h ⊢ <;> simp at h
  rw [hv, moveStep_skipped_iff]
  refine and_congr_right fun hr => ?_
  obtain ⟨owner, i, array, j, ho, ha, -⟩ := exists_elements_of_not_refusal hr
  exact not_movable_iff (element?_of_owningArray ho) (element?_of_owningArray ha)

end Json

namespace Document

theorem ofEdited_eq_skipped_iff {d : Document} {edited : Edited} :
    d.ofEdited edited = (d, .done .skipped) ↔ edited = .skipped d.value := by
  constructor
  · intro h
    obtain ⟨hd, hv⟩ := Prod.mk.inj h
    have hdoc : edited.document = d.value := congrArg value hd
    cases edited
    simp_all [Edited.skipped]
  · rintro rfl
    rfl

/-- A child is never put at a path that leads nowhere. -/
theorem insertChild_of_resolve_eq_none {d : Document} {path : Path} (h : d.resolve path = none)
    (catalog : Catalog) (property : String) (value : Json) (mode : ChildMode) :
    d.insertChild catalog path property value mode = (d, .done .skipped) := by
  have hp : d.processorAt? path = none := by
    rw [processorAt?, h]
    rfl
  rw [insertChild, hp]

theorem remove_skipped_iff {d : Document} {path : Path} (h : d.resolve path = none) :
    d.remove path = (d, .done .skipped) ↔ path.isRoot = false := by
  rw [remove, ofEdited_eq_skipped_iff]
  cases hp : path.isRoot with
  | false => simp [Json.remove_of_resolve_eq_none h hp]
  | true => simp [Json.remove_of_isRoot hp, Edited.refused, Edited.skipped]

/-- **Stale paths.** At a path that leads nowhere a child insertion is skipped, and a
removal is unless the path is a single step; an insertion beside an element is skipped
exactly when the element is missing, and carried out exactly when it is there without
the path's last key; and a replacement is skipped unless it is there so.  A move with
such an end is skipped exactly when its paths do not refuse it and stand for one
element, or one of their elements is missing. -/
theorem stale_edits_skipped_iff (d : Document) (catalog : Catalog) :
    (∀ path, d.resolve path = none →
      (∀ property value mode,
        d.insertChild catalog path property value mode = (d, .done .skipped)) ∧
      (∀ processor property value mode,
        d.value.insertChild catalog path processor property value mode = .skipped d.value) ∧
      (d.remove path = (d, .done .skipped) ↔ path.isRoot = false) ∧
      (∀ value mode,
        (d.insertAdjacent path value mode = (d, .done .skipped) ↔ d.value.Lost path) ∧
        ((d.insertAdjacent path value mode).2 = .done .applied ↔ d.value.Outdated path)) ∧
      ∀ value, d.replace path value = (d, .done .skipped) ↔ ¬ d.value.Outdated path) ∧
    ∀ source target mode, d.resolve source = none ∨ d.resolve target = none →
      (d.moveStep source target mode = (d, .done .skipped) ↔
        (∀ error, ¬ MoveRefusal source target error) ∧
          (source.element? = target.element? ∨ d.value.Lost source ∨ d.value.Lost target)) := by
  refine ⟨fun path h => ⟨insertChild_of_resolve_eq_none h catalog,
    fun processor property value mode => ?_, remove_skipped_iff h, fun value mode => ⟨?_, ?_⟩,
    fun value => ?_⟩, fun source target mode _ => ?_⟩
  · exact Json.editNode_of_get?_eq_none h _
  · exact ofEdited_eq_skipped_iff.trans (Json.insertAdjacent_skipped_iff h value mode)
  · exact Json.insertAdjacent_applied_iff h value mode
  · exact ofEdited_eq_skipped_iff.trans (Json.replace_skipped_iff h value)
  · exact ofEdited_eq_skipped_iff.trans Json.moveStep_skipped_iff_lost

/-- A path to the step that another one has replaced, and one behind the last step. -/
theorem stale_edits_skipped_iff_replaced :
    let steps : Path := ⟨[.name "route", .name "steps"], by simp⟩
    let d : Document := ⟨.obj [("route", .obj [("steps", .arr [.obj [("to", .null)]])])], "route"⟩
    let replaced : Path := (steps.elementAt 0).child "log"
    let behind : Path := (steps.elementAt 1).child "log"
    (d.resolve replaced = none ∧ d.resolve behind = none) ∧
      d.insertChild .empty replaced "steps" .null .append = (d, .done .skipped) ∧
      d.remove replaced = (d, .done .skipped) ∧
      d.insertAdjacent behind .null .before = (d, .done .skipped) ∧
      (d.insertAdjacent replaced .null .before).2 = .done .applied ∧
      d.replace behind .null = (d, .done .skipped) ∧
      d.moveStep behind replaced .after = (d, .done .skipped) := by
  intro steps d replaced behind
  have hr : d.resolve replaced = none := by decide +kernel
  have hb : d.resolve behind = none := by decide +kernel
  have hbe : behind.element? = some (steps.elementAt 1) := by decide +kernel
  have hre : replaced.element? = some (steps.elementAt 0) := by decide +kernel
  have hn : d.resolve (steps.elementAt 1) = none := by decide +kernel
  have hlost : d.value.Lost behind := ⟨_, hbe, hn⟩
  have hout : d.value.Outdated replaced := ⟨hr, _, .obj [("to", .null)], hre, by decide +kernel⟩
  have hin : ¬ d.value.Outdated behind := by
    rintro ⟨-, element, node, he, hnode⟩
    rw [hbe] at he
    rw [← Option.some.inj he] at hnode
    exact Option.some_ne_none node (hnode.symm.trans hn)
  have hs := (stale_edits_skipped_iff d .empty).1 replaced hr
  have hs' := (stale_edits_skipped_iff d .empty).1 behind hb
  have hmove : ∀ error, ¬ MoveRefusal behind replaced error := by
    intro error hrefusal
    cases hrefusal with
    | sourceTail hnone => rw [hbe] at hnone; contradiction
    | targetTail _ hnone => rw [hre] at hnone; contradiction
    | intoSelf hse hte _ hp =>
        rw [hbe] at hse
        rw [hre] at hte
        rw [← Option.some.inj hse, ← Option.some.inj hte] at hp
        revert hp
        decide +kernel
  exact ⟨⟨hr, hb⟩, hs.1 _ _ _, hs.2.2.1.2 (by decide), ((hs'.2.2.2.1 _ _).1.2 hlost),
    (hs.2.2.2.1 _ _).2.2 hout, (hs'.2.2.2.2 _).2 hin,
    ((stale_edits_skipped_iff d .empty).2 behind replaced .after (.inl hb)).2
      ⟨hmove, .inr (.inl hlost)⟩⟩

/-- A path to a step that another one has replaced does put a value beside that one. -/
theorem not_stale_edits_skipped :
    ¬ ∀ (d : Document) (path : Path), d.resolve path = none → ∀ (value : Json),
      (∀ mode, d.insertAdjacent path value mode = (d, .done .skipped)) ∧
      d.replace path value = (d, .done .skipped) ∧
      d.remove path = (d, .done .skipped) ∧
      ∀ catalog property mode,
        d.insertChild catalog path property value mode = (d, .done .skipped) := by
  intro h
  have hi := (h ⟨.obj [("route", .obj [("steps", .arr [.obj [("to", .null)]])])], "route"⟩
    ⟨[.name "route", .name "steps", .index 0, .name "log"], by simp⟩ (by decide +kernel)
    (.obj [("stop", .null)])).1 .before
  revert hi
  decide +kernel

end Document

end FlowTree
