import FlowTree.Proofs.Tree.Retarget

/-!
# FlowTree.Proofs.Tree.Splice

Putting values beside, and in place of, elements of arrays.

* `insertAdjacent_eq_applied` — a value goes beside every element that is there;
* `remove_elementAt` — removing an element splices it out;
* `Placed` — where the value is afterwards, with `placed_spliceItems` for the
  edited document.
-/

namespace FlowTree

namespace Json

open FlowTree.Path

/-! ## Elements -/

/-- An element is found where its array has one. -/
theorem resolve_elementAt_eq_some_iff {doc node : Json} {owner : Path} {i : Nat} :
    doc.resolve (owner.elementAt i) = some node ↔
      ∃ items, doc.resolve owner = some (.arr items) ∧ items[i]? = some node := by
  rw [resolve, segments_elementAt, get?_append, Option.bind_eq_some_iff]
  constructor
  · rintro ⟨array, ha, hs⟩
    rw [get?_cons] at hs
    obtain ⟨child, hc, hn⟩ := Option.bind_eq_some_iff.1 hs
    cases array with
    | arr items =>
        rw [← Option.some.inj hn]
        exact ⟨items, ha, hc⟩
    | null | bool | num | str | obj => contradiction
  · rintro ⟨items, ha, hn⟩
    refine ⟨.arr items, ha, ?_⟩
    rw [get?_cons, step?, hn]
    rfl

theorem hasElement_resolve_iff {doc : Json} {owner : Path} {i : Nat} :
    hasElement i (doc.resolve owner) = true ↔
      (doc.resolve (owner.elementAt i)).isSome = true := by
  rw [Option.isSome_iff_exists]
  constructor
  · intro h
    unfold hasElement at h
    split at h
    · rename_i items ha
      have hi : i < items.length := of_decide_eq_true h
      exact ⟨items[i], resolve_elementAt_eq_some_iff.2 ⟨items, ha, List.getElem?_eq_getElem hi⟩⟩
    · contradiction
  · rintro ⟨node, hn⟩
    obtain ⟨items, ha, hi⟩ := resolve_elementAt_eq_some_iff.1 hn
    rw [ha, hasElement]
    exact decide_eq_true (List.getElem?_eq_some_iff.1 hi).1

theorem resolve_elementAt_overwrite {doc old : Json} {owner : Path}
    (h : doc.resolve owner = some old) (items : List Json) (i : Nat) :
    (overwrite owner.segments (.arr items) doc).resolve (owner.elementAt i) = items[i]? := by
  rw [resolve, segments_elementAt, get?_overwrite_append _ _ h, get?_cons, step?]
  cases items[i]? <;> rfl

/-- Splicing an element out of an array that was written. -/
theorem without_overwrite (doc : Json) (owner : Path) (items : List Json) (i : Nat) :
    (overwrite owner.segments (.arr items) doc).without owner i =
      overwrite owner.segments (.arr (items.eraseIdx i)) doc := by
  rw [without, overwrite_eq_modify, modify_modify, overwrite_eq_modify]
  rfl

theorem without_eq_overwrite {doc : Json} {owner : Path} {items : List Json}
    (h : doc.resolve owner = some (.arr items)) (i : Nat) :
    doc.without owner i = overwrite owner.segments (.arr (items.eraseIdx i)) doc :=
  modify_of_get? (eraseItem i) h

/-! ## Edits of elements -/

theorem editAt_of_resolve {doc node value : Json} {path : Path} {f : Json → Option Json}
    (h : doc.resolve path = some node) (hf : f node = some value) :
    doc.editAt (some path) f = .applied (overwrite path.segments value doc) := by
  rw [editAt, h, Option.bind_some, hf]

/-- The path of an element asks for its array. -/
theorem remove_elementAt_eq_editAt (doc : Json) (owner : Path) (i : Nat) :
    doc.remove (owner.elementAt i) = doc.editAt (some owner) (spliceOut i) := by
  simp only [remove, tail_elementAt, ancestor_one_elementAt]

/-- The path of a property of an element asks for the array of the element. -/
theorem remove_child_elementAt_eq_editAt (doc : Json) (owner : Path) (i : Nat) (key : String) :
    doc.remove ((owner.elementAt i).child key) =
      doc.editAt (some owner) (spliceOutProperty i key) := by
  simp only [remove, tail_child_elementAt, last_child, ancestor_two_child_elementAt]

/-- The path of any other property asks for the object above it. -/
theorem remove_child_eq_editAt {path : Path} {name : String} (hp : path.last = .name name)
    (doc : Json) (key : String) :
    doc.remove (path.child key) = doc.editAt (some path) (dropProperty key) := by
  simp only [remove, tail_child_of_last hp, last_child, ancestor_one_child]

/-- Removing an element splices it out. -/
theorem remove_elementAt {doc node : Json} {owner : Path} {i : Nat}
    (h : doc.resolve (owner.elementAt i) = some node) :
    doc.remove (owner.elementAt i) = .applied (doc.without owner i) := by
  obtain ⟨items, ha, hi⟩ := resolve_elementAt_eq_some_iff.1 h
  have hlt : i < items.length := (List.getElem?_eq_some_iff.1 hi).1
  have ho : spliceOut i (.arr items) = some (.arr (items.eraseIdx i)) := by
    rw [spliceOut, if_pos hlt]
  rw [remove_elementAt_eq_editAt, editAt_of_resolve ha ho, without_eq_overwrite ha]

/-- Removing the step of a holder splices the holder out. -/
theorem remove_child_elementAt {doc value : Json} {owner : Path} {i : Nat} {key : String}
    (h : doc.resolve (owner.elementAt i) = some (.obj [(key, value)])) :
    doc.remove ((owner.elementAt i).child key) = .applied (doc.without owner i) := by
  obtain ⟨items, ha, hi⟩ := resolve_elementAt_eq_some_iff.1 h
  have ho : spliceOutProperty i key (.arr items) = some (.arr (items.eraseIdx i)) := by
    simp [spliceOutProperty, hi, Fields.has, Fields.get?_cons]
  rw [remove_child_elementAt_eq_editAt, editAt_of_resolve ha ho, without_eq_overwrite ha]

/-- Removing a property that is not one of an element drops it. -/
theorem remove_child {doc : Json} {path : Path} {key name : String} {fields : Fields Json}
    (hp : path.last = .name name) (h : doc.resolve path = some (.obj fields))
    (hk : Fields.has key fields = true) :
    doc.remove (path.child key) =
      .applied (overwrite path.segments (.obj (Fields.drop key fields)) doc) := by
  have hd : dropProperty key (.obj fields) = some (.obj (Fields.drop key fields)) := by
    rw [dropProperty, if_pos hk]
  rw [remove_child_eq_editAt hp, editAt_of_resolve h hd]

/-- An insertion edits the array of the element. -/
theorem insertAdjacent_of_owningArray {path owner : Path} {i : Nat}
    (h : path.owningArray = some (owner, i)) (doc value : Json) (mode : AdjacentMode) :
    doc.insertAdjacent path value mode = doc.editAt (some owner) (spliceIn mode i value) := by
  rw [insertAdjacent, h]

/-- An element is replaced by an insertion in its place. -/
theorem replace_of_owningArray {path : Path} {found : Path × Nat}
    (h : path.owningArray = some found) (doc value : Json) :
    doc.replace path value = doc.insertAdjacent path value .replace := by
  rw [replace, h]
  rfl

/-- A value goes beside, or in place of, every element that is there. -/
theorem insertAdjacent_eq_applied {doc value : Json} {path owner : Path} {i : Nat}
    {items : List Json} (hp : path.owningArray = some (owner, i))
    (ha : doc.resolve owner = some (.arr items)) (hi : i < items.length) (mode : AdjacentMode) :
    doc.insertAdjacent path value mode =
      .applied (overwrite owner.segments (.arr (spliceItems mode i value items)) doc) := by
  have hs : spliceIn mode i value (.arr items) = some (.arr (spliceItems mode i value items)) := by
    rw [spliceIn, if_pos hi]
  rw [insertAdjacent_of_owningArray hp, editAt_of_resolve ha hs]

/-! ## Where a value goes -/

/-- `result` is `doc` with a value put beside, or in place of, the element at a
position of the array at `owner`.  A value beside the element is its neighbour, and
splicing the value out gives `doc` again. -/
def Placed (mode : AdjacentMode) (owner : Path) (i : Nat) (value doc result : Json) : Prop :=
  match mode with
  | .before =>
    result.resolve (owner.elementAt i) = some value ∧
      result.resolve (owner.elementAt (i + 1)) = doc.resolve (owner.elementAt i) ∧
      result.without owner i = doc
  | .after =>
    result.resolve (owner.elementAt i) = doc.resolve (owner.elementAt i) ∧
      result.resolve (owner.elementAt (i + 1)) = some value ∧
      result.without owner (i + 1) = doc
  | .replace => result = overwrite (owner.elementAt i).segments value doc

theorem eraseIdx_take_append_cons_drop {α : Type} {i : Nat} {items : List α}
    (h : i ≤ items.length) (value : α) :
    (items.take i ++ value :: items.drop i).eraseIdx i = items := by
  have hl : (items.take i).length = i := by simp [h]
  rw [List.eraseIdx_append_of_length_le (Nat.le_of_eq hl), hl, Nat.sub_self, List.eraseIdx_cons_zero,
    List.take_append_drop]

/-- The element at a position is written in the array as it is in the document. -/
theorem overwrite_elementAt {doc : Json} {owner : Path} {items : List Json}
    (h : doc.resolve owner = some (.arr items)) (i : Nat) (value : Json) :
    overwrite (owner.elementAt i).segments value doc =
      overwrite owner.segments (.arr (items.set i value)) doc := by
  have hs : modify (fun _ => value) [.index i] (.arr items) = .arr (items.set i value) := by
    have hi : step? (.index i) (.arr items) = items[i]? := rfl
    cases hn : items[i]? with
    | some node =>
        rw [modify_cons_of_step? _ [] (hi.trans hn)]
        rfl
    | none =>
        rw [modify_cons_of_step?_eq_none _ [] (hi.trans hn),
          List.set_eq_of_length_le (List.getElem?_eq_none_iff.1 hn)]
  rw [overwrite_eq_modify, segments_elementAt, modify_append, modify_of_get? _ h, hs]

/-- The edited array has the value at its place. -/
theorem placed_spliceItems {doc : Json} {owner : Path} {i : Nat} {items : List Json}
    (ha : doc.resolve owner = some (.arr items)) (hi : i < items.length) (mode : AdjacentMode)
    (value : Json) :
    Placed mode owner i value doc
      (overwrite owner.segments (.arr (spliceItems mode i value items)) doc) := by
  have ho (xs : List Json) (k : Nat) := resolve_elementAt_overwrite ha xs k
  have hd : doc.resolve (owner.elementAt i) = items[i]? := by
    rw [← ho, overwrite_of_get? ha]
  have hw : overwrite owner.segments (.arr items) doc = doc := overwrite_of_get? ha
  cases mode with
  | before =>
      have hl : (items.take i).length = i := by simp [Nat.le_of_lt hi]
      refine ⟨?_, ?_, ?_⟩
      · rw [ho, spliceItems_before, List.getElem?_append_right (Nat.le_of_eq hl), hl]
        simp
      · rw [ho, hd, spliceItems_before, List.getElem?_append_right (by omega), hl]
        simp
      · rw [without_overwrite, spliceItems_before,
          eraseIdx_take_append_cons_drop (Nat.le_of_lt hi), hw]
  | after =>
      have hl : (items.take (i + 1)).length = i + 1 := by simp [Nat.succ_le_of_lt hi]
      refine ⟨?_, ?_, ?_⟩
      · rw [ho, hd, spliceItems_after, List.getElem?_append_left (by omega)]
        simp
      · rw [ho, spliceItems_after, List.getElem?_append_right (Nat.le_of_eq hl), hl]
        simp
      · rw [without_overwrite, spliceItems_after, eraseIdx_take_append_cons_drop hi, hw]
  | replace => exact (overwrite_elementAt ha i value).symm

end Json

end FlowTree
