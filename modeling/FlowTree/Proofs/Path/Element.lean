import FlowTree.Path.Basic

/-!
# FlowTree.Proofs.Path.Element

The array element that a path addresses.

A path ends in a position, or in a key behind a position; either way it stands for
the element at that position, and every other path stands for none.

* `ancestor_eq_some_iff` — an ancestor is what is left without the last steps;
* `owningArray_eq_some_iff` — the paths that stand for an element.
-/

namespace FlowTree

namespace Path

theorem eq_of_segments {p q : Path} (h : p.segments = q.segments) : p = q := by
  cases p
  cases q
  simp_all

@[simp] theorem segments_elementAt (p : Path) (i : Nat) :
    (p.elementAt i).segments = p.segments ++ [.index i] := rfl

@[simp] theorem segments_child (p : Path) (key : String) :
    (p.child key).segments = p.segments ++ [.name key] := rfl

@[simp] theorem last_elementAt (p : Path) (i : Nat) : (p.elementAt i).last = .index i := by
  simp [last]

@[simp] theorem last_child (p : Path) (key : String) : (p.child key).last = .name key := by
  simp [last]

theorem join_inj {p q : Path} {s t : Segment} : p.join s = q.join t ↔ p = q ∧ s = t := by
  constructor
  · intro h
    obtain ⟨hp, hs⟩ := List.append_inj' (congrArg segments h) rfl
    exact ⟨eq_of_segments hp, List.singleton_inj.1 hs⟩
  · rintro ⟨rfl, rfl⟩
    rfl

theorem child_inj {p q : Path} {a b : String} : p.child a = q.child b ↔ p = q ∧ a = b := by
  rw [child, child, join_inj, Segment.name.injEq]

theorem elementAt_inj {p q : Path} {i j : Nat} :
    p.elementAt i = q.elementAt j ↔ p = q ∧ i = j := by
  rw [elementAt, elementAt, join_inj, Segment.index.injEq]

theorem segments_of_last {p : Path} {s : Segment} (h : p.last = s) :
    p.segments = p.segments.dropLast ++ [s] := by
  rw [← h, last, List.dropLast_concat_getLast]

/-- A path that ends in a key has it as its last one. -/
theorem lastName?_of_last {p : Path} {key : String} (h : p.last = .name key) :
    p.lastName? = some key := by
  rw [lastName?, segments_of_last h, List.reverse_append]
  rfl

/-- An element is called by the last key of its array. -/
@[simp] theorem lastName?_elementAt (p : Path) (i : Nat) :
    (p.elementAt i).lastName? = p.lastName? := by
  rw [lastName?, segments_elementAt, List.reverse_append]
  rfl

theorem startsWith_iff {p q : Path} : p.startsWith q = true ↔ q.segments <+: p.segments :=
  List.isPrefixOf_iff_prefix

/-- The array element that a path addresses, as a path of its own. -/
def element? (p : Path) : Option Path :=
  p.owningArray.map fun (owner, i) => owner.elementAt i

/-! ## Ancestors -/

theorem ancestor_eq_some_iff {p q : Path} {levels : Nat} :
    p.ancestor levels = some q ↔
      ∃ back, back.length = levels ∧ p.segments = q.segments ++ back := by
  constructor
  · intro h
    unfold ancestor at h
    split at h
    · rename_i hl
      have hq : p.segments.take (p.segments.length - levels) = q.segments :=
        congrArg segments (Option.some.inj h)
      refine ⟨p.segments.drop (p.segments.length - levels), ?_, ?_⟩
      · rw [List.length_drop]
        omega
      · rw [← hq, List.take_append_drop]
    · contradiction
  · rintro ⟨back, rfl, hp⟩
    have hq : 0 < q.segments.length := List.length_pos_iff.2 q.nonempty
    have hl : back.length < p.segments.length := by
      rw [hp, List.length_append]
      omega
    rw [ancestor, dif_pos hl]
    refine congrArg some (eq_of_segments ?_)
    simp [hp]

theorem ancestor_one_elementAt (p : Path) (i : Nat) : (p.elementAt i).ancestor 1 = some p :=
  ancestor_eq_some_iff.2 ⟨[.index i], rfl, rfl⟩

theorem ancestor_one_child (p : Path) (key : String) : (p.child key).ancestor 1 = some p :=
  ancestor_eq_some_iff.2 ⟨[.name key], rfl, rfl⟩

/-- A path that ends in a position leads to an element of its parent. -/
theorem eq_elementAt_of_parent {p array : Path} {i : Nat} (hl : p.last = .index i)
    (hp : p.parent = some array) : p = array.elementAt i := by
  obtain ⟨back, hb, hs⟩ := ancestor_eq_some_iff.1 hp
  obtain ⟨s, rfl⟩ := List.length_eq_one_iff.1 hb
  have hlast : p.last = s := by simp [last, hs]
  exact eq_of_segments (by rw [hs, ← hlast, hl, segments_elementAt])

theorem ancestor_two_child_elementAt (p : Path) (i : Nat) (key : String) :
    ((p.elementAt i).child key).ancestor 2 = some p :=
  ancestor_eq_some_iff.2 ⟨[.index i, .name key], rfl, by simp⟩

/-- A path that ends in a position leads to an element, unless the position is all of it. -/
theorem eq_elementAt_or_segments_eq {p : Path} {i : Nat} (h : p.last = .index i) :
    (∃ owner, p = elementAt owner i) ∨ p.segments = [.index i] := by
  have hs := segments_of_last h
  by_cases hfront : p.segments.dropLast = []
  · rw [hfront] at hs
    exact .inr hs
  · exact .inl ⟨⟨p.segments.dropLast, hfront⟩, eq_of_segments hs⟩

/-! ## Tails -/

@[simp] theorem tail_elementAt (p : Path) (i : Nat) : (p.elementAt i).tail = .arrayElement i := by
  have hp : p.segments.reverse ≠ [] := by simpa using p.nonempty
  obtain ⟨s, rest, hs⟩ := List.exists_cons_of_ne_nil hp
  rw [tail, segments_elementAt, List.reverse_append, hs]
  rfl

@[simp] theorem tail_child_elementAt (p : Path) (i : Nat) (key : String) :
    ((p.elementAt i).child key).tail = .indexedProperty i := by
  rw [tail, segments_child, segments_elementAt, List.reverse_append, List.reverse_append]
  rfl

/-- A key behind a key is a property of an object. -/
theorem tail_child_of_last {p : Path} {name : String} (h : p.last = .name name) (key : String) :
    (p.child key).tail = .objectProperty := by
  rw [tail, segments_child, segments_of_last h, List.reverse_append, List.reverse_append]
  rfl

theorem eq_of_tail_arrayElement {p : Path} {i : Nat} (h : p.tail = .arrayElement i) :
    ∃ front, p.segments = front ++ [.index i] := by
  unfold tail tailOfReversed at h
  split at h
  · rename_i j s rest hr
    obtain rfl : j = i := by simpa using h
    exact ⟨(s :: rest).reverse, by rw [← List.reverse_reverse p.segments, hr, List.reverse_cons]⟩
  all_goals contradiction

theorem eq_of_tail_indexedProperty {p : Path} {i : Nat} (h : p.tail = .indexedProperty i) :
    ∃ front key, p.segments = front ++ [.index i, .name key] := by
  unfold tail tailOfReversed at h
  split at h
  · contradiction
  · rename_i key j rest hr
    obtain rfl : j = i := by simpa using h
    refine ⟨rest.reverse, key, ?_⟩
    rw [← List.reverse_reverse p.segments, hr, List.reverse_cons, List.reverse_cons,
      List.append_assoc]
    rfl
  all_goals contradiction

theorem eq_of_tail_objectProperty {p : Path} (h : p.tail = .objectProperty) :
    ∃ front outer key, p.segments = front ++ [.name outer, .name key] := by
  unfold tail tailOfReversed at h
  split at h
  · contradiction
  · contradiction
  · rename_i key outer rest hr
    refine ⟨rest.reverse, outer, key, ?_⟩
    rw [← List.reverse_reverse p.segments, hr, List.reverse_cons, List.reverse_cons,
      List.append_assoc]
    rfl
  · contradiction

/-- The paths whose last two steps address nothing have a single one. -/
theorem tail_eq_root_iff {p : Path} : p.tail = .root ↔ p.isRoot = true := by
  have hp : p.segments.reverse ≠ [] := by simpa using p.nonempty
  have hl : p.segments.reverse.length = p.segments.length := List.length_reverse
  rw [tail, isRoot, Path.length, ← hl]
  match hr : p.segments.reverse, hp with
  | [.index _], _ => simp [tailOfReversed]
  | [.name _], _ => simp [tailOfReversed]
  | .index _ :: _ :: _, _ => simp [tailOfReversed]
  | .name _ :: .index _ :: _, _ => simp [tailOfReversed]
  | .name _ :: .name _ :: _, _ => simp [tailOfReversed]

/-- The paths that stand for the element at a position are that of the element and
those of its properties. -/
theorem owningArray_eq_some_iff {p owner : Path} {i : Nat} :
    p.owningArray = some (owner, i) ↔
      p = owner.elementAt i ∨ ∃ key, p = (owner.elementAt i).child key := by
  constructor
  · intro h
    unfold owningArray at h
    split at h
    · rename_i j ht
      obtain ⟨q, hq, he⟩ := Option.map_eq_some_iff.1 h
      obtain ⟨rfl, rfl⟩ := Prod.mk.inj he
      obtain ⟨front, hf⟩ := eq_of_tail_arrayElement ht
      obtain ⟨back, hb, hp⟩ := ancestor_eq_some_iff.1 hq
      have hs := List.append_inj' (hf.symm.trans hp) (by simp [hb])
      exact .inl (eq_of_segments (by rw [hf, hs.1, segments_elementAt]))
    · rename_i j ht
      obtain ⟨q, hq, he⟩ := Option.map_eq_some_iff.1 h
      obtain ⟨rfl, rfl⟩ := Prod.mk.inj he
      obtain ⟨front, key, hf⟩ := eq_of_tail_indexedProperty ht
      obtain ⟨back, hb, hp⟩ := ancestor_eq_some_iff.1 hq
      have hs := List.append_inj' (hf.symm.trans hp) (by simp [hb])
      exact .inr ⟨key, eq_of_segments (by rw [hf, hs.1]; simp)⟩
    all_goals contradiction
  · rintro (rfl | ⟨key, rfl⟩)
    · rw [owningArray, tail_elementAt, ancestor_one_elementAt]
      rfl
    · rw [owningArray, tail_child_elementAt, ancestor_two_child_elementAt]
      rfl

theorem owningArray_elementAt (p : Path) (i : Nat) :
    (p.elementAt i).owningArray = some (p, i) := owningArray_eq_some_iff.2 (.inl rfl)

theorem owningArray_child_elementAt (p : Path) (i : Nat) (key : String) :
    ((p.elementAt i).child key).owningArray = some (p, i) :=
  owningArray_eq_some_iff.2 (.inr ⟨key, rfl⟩)

theorem owningArray_child_of_last {p : Path} {name : String} (h : p.last = .name name)
    (key : String) : (p.child key).owningArray = none := by
  rw [owningArray, tail_child_of_last h]

end Path

end FlowTree
