import FlowTree.Proofs.Tree.Splice

/-!
# FlowTree.Proofs.Tree.Move

Moves relocate one element and nothing else.

A move looks at its two paths first and is refused for what they are
(`MoveRefusal`).  Otherwise it is carried out when the document has both elements
(`Movable`), and skipped when it has not.

* `moveStep_of_refusal`, `moveStep_of_not_movable`, `moveStep_of_resolve` — the
  three ways of a move;
* `moveStep_relocates` — when each of them is taken, and where the element goes.
-/

namespace FlowTree

open FlowTree.Path

/-- Why a move is refused, whatever the document holds: an end stands for no element,
or the target lies inside the source. -/
inductive MoveRefusal (source target : Path) : EditError → Prop where
  | sourceTail (hs : source.element? = none) :
    MoveRefusal source target (.unsupportedTail source)
  | targetTail (hs : source.element? ≠ none) (ht : target.element? = none) :
    MoveRefusal source target (.unsupportedTail target)
  | intoSelf {s t : Path} (hs : source.element? = some s) (ht : target.element? = some t)
    (hne : t ≠ s) (hb : t.startsWith s = true) :
    MoveRefusal source target (.moveIntoSelf source target)

/-- Whether a document has the elements that two paths stand for, and they are two. -/
def Movable (doc : Json) (source target : Path) : Prop :=
  ∃ s t, source.element? = some s ∧ target.element? = some t ∧ s ≠ t ∧
    (doc.resolve s).isSome = true ∧ (doc.resolve t).isSome = true

namespace Path

theorem element?_of_owningArray {p owner : Path} {i : Nat}
    (h : p.owningArray = some (owner, i)) : p.element? = some (owner.elementAt i) := by
  rw [element?, h]
  rfl

theorem owningArray_of_element?_eq_none {p : Path} (h : p.element? = none) :
    p.owningArray = none := Option.map_eq_none_iff.1 h

theorem exists_owningArray_of_element? {p element : Path} (h : p.element? = some element) :
    ∃ owner i, p.owningArray = some (owner, i) ∧ element = owner.elementAt i := by
  obtain ⟨⟨owner, i⟩, ho, he⟩ := Option.map_eq_some_iff.1 h
  exact ⟨owner, i, ho, he.symm⟩

theorem startsWith_self (p : Path) : p.startsWith p = true :=
  startsWith_iff.2 (List.prefix_refl _)

end Path

namespace Json

/-! ## The three ways of a move -/

/-- A refused move leaves the document as it is and says why. -/
theorem moveStep_of_refusal {source target : Path} {error : EditError}
    (h : MoveRefusal source target error) (doc : Json) (mode : AdjacentMode) :
    doc.moveStep source target mode = .refused doc error := by
  cases h with
  | sourceTail hs => rw [moveStep, owningArray_of_element?_eq_none hs]
  | targetTail hs ht =>
      obtain ⟨s, he⟩ := Option.ne_none_iff_exists'.1 hs
      obtain ⟨owner, i, ho, -⟩ := exists_owningArray_of_element? he
      rw [moveStep, ho, owningArray_of_element?_eq_none ht]
  | intoSelf hs ht hne hb =>
      obtain ⟨owner, i, ho, rfl⟩ := exists_owningArray_of_element? hs
      obtain ⟨array, j, ha, rfl⟩ := exists_owningArray_of_element? ht
      simp only [moveStep, ho, ha]
      rw [if_neg hne, if_pos hb]

/-- A move between elements that are there is carried out: the source is spliced out,
and goes to the target where that is then. -/
theorem moveStep_of_resolve {doc moved old : Json} {source target owner array : Path} {i j : Nat}
    (hs : source.owningArray = some (owner, i)) (ht : target.owningArray = some (array, j))
    (hb : (array.elementAt j).startsWith (owner.elementAt i) = false)
    (hm : doc.resolve (owner.elementAt i) = some moved)
    (ho : doc.resolve (array.elementAt j) = some old) (mode : AdjacentMode) :
    ∃ items,
      (doc.without owner i).resolve (array.retarget owner i) = some (.arr items) ∧
      items[retargetIndex owner i array j]? = some (remnant owner i (array.elementAt j) old) ∧
      doc.moveStep source target mode =
        .applied (overwrite (array.retarget owner i).segments
          (.arr (spliceItems mode (retargetIndex owner i array j) moved items))
          (doc.without owner i)) := by
  have hne : array.elementAt j ≠ owner.elementAt i := fun he => by
    rw [he, startsWith_self] at hb
    contradiction
  -- the target is still there without the source, so that the insertion finds it
  have hr := resolve_retarget_without hb doc
  rw [ho, Option.map_some, retarget_elementAt] at hr
  obtain ⟨items, ha, hi⟩ := resolve_elementAt_eq_some_iff.1 hr
  have hlt : retargetIndex owner i array j < items.length := (List.getElem?_eq_some_iff.1 hi).1
  have he : hasElement j (doc.resolve array) = true :=
    hasElement_resolve_iff.2 (by rw [ho]; rfl)
  have hrem : (doc.remove (owner.elementAt i)).document = doc.without owner i := by
    rw [remove_elementAt hm]
    rfl
  refine ⟨items, ha, hi, ?_⟩
  simp only [moveStep, hs, ht, hm]
  rw [if_neg hne, if_neg (by rw [hb]; exact Bool.false_ne_true), if_pos he, hrem]
  exact insertAdjacent_eq_applied (owningArray_retarget owner i ht) ha hlt mode

/-- The two elements of a move that is not refused. -/
theorem exists_elements_of_not_refusal {source target : Path}
    (hr : ∀ error, ¬ MoveRefusal source target error) :
    ∃ owner i array j,
      source.owningArray = some (owner, i) ∧ target.owningArray = some (array, j) ∧
      (array.elementAt j ≠ owner.elementAt i →
        (array.elementAt j).startsWith (owner.elementAt i) = false) := by
  cases hs : source.element? with
  | none => exact absurd (.sourceTail hs) (hr _)
  | some s =>
      cases ht : target.element? with
      | none => exact absurd (.targetTail (by rw [hs]; exact Option.some_ne_none s) ht) (hr _)
      | some t =>
          obtain ⟨owner, i, ho, rfl⟩ := exists_owningArray_of_element? hs
          obtain ⟨array, j, ha, rfl⟩ := exists_owningArray_of_element? ht
          refine ⟨owner, i, array, j, ho, ha, fun hne => ?_⟩
          exact Bool.eq_false_iff.2 fun hb => hr _ (.intoSelf hs ht hne hb)

/-- A move that is not refused and does not find two elements is skipped. -/
theorem moveStep_of_not_movable {doc : Json} {source target : Path}
    (hr : ∀ error, ¬ MoveRefusal source target error) (hm : ¬ Movable doc source target)
    (mode : AdjacentMode) : doc.moveStep source target mode = .skipped doc := by
  obtain ⟨owner, i, array, j, ho, ha, hb⟩ := exists_elements_of_not_refusal hr
  simp only [moveStep, ho, ha]
  by_cases hne : array.elementAt j = owner.elementAt i
  · rw [if_pos hne]
  · rw [if_neg hne, if_neg (by rw [hb hne]; exact Bool.false_ne_true)]
    cases hs : doc.resolve (owner.elementAt i) with
    | none => rfl
    | some moved =>
        have he : ¬ hasElement j (doc.resolve array) = true := fun he =>
          hm ⟨_, _, element?_of_owningArray ho, element?_of_owningArray ha, Ne.symm hne,
            by rw [hs]; rfl, hasElement_resolve_iff.1 he⟩
        exact if_neg he

/-- The elements of a move that is not refused and finds them. -/
theorem exists_resolve_of_movable {doc : Json} {source target : Path}
    (hr : ∀ error, ¬ MoveRefusal source target error) (hm : Movable doc source target) :
    ∃ owner i array j moved old,
      source.owningArray = some (owner, i) ∧ target.owningArray = some (array, j) ∧
      (array.elementAt j).startsWith (owner.elementAt i) = false ∧
      doc.resolve (owner.elementAt i) = some moved ∧
      doc.resolve (array.elementAt j) = some old := by
  obtain ⟨owner, i, array, j, ho, ha, hb⟩ := exists_elements_of_not_refusal hr
  obtain ⟨s, t, hs, ht, hst, hms, hmt⟩ := hm
  obtain rfl := Option.some.inj ((element?_of_owningArray ho).symm.trans hs)
  obtain rfl := Option.some.inj ((element?_of_owningArray ha).symm.trans ht)
  obtain ⟨moved, hmoved⟩ := Option.isSome_iff_exists.1 hms
  obtain ⟨old, hold⟩ := Option.isSome_iff_exists.1 hmt
  exact ⟨owner, i, array, j, moved, old, ho, ha, hb (Ne.symm hst), hmoved, hold⟩

/-- Every move is refused, skipped or carried out, and says which. -/
theorem moveStep_cases (doc : Json) (source target : Path) (mode : AdjacentMode) :
    (∃ error, MoveRefusal source target error ∧
      doc.moveStep source target mode = .refused doc error) ∨
    ((∀ error, ¬ MoveRefusal source target error) ∧ ¬ Movable doc source target ∧
      doc.moveStep source target mode = .skipped doc) ∨
    ((∀ error, ¬ MoveRefusal source target error) ∧ Movable doc source target ∧
      ∃ result, doc.moveStep source target mode = .applied result) := by
  by_cases hr : ∃ error, MoveRefusal source target error
  · obtain ⟨error, he⟩ := hr
    exact .inl ⟨error, he, moveStep_of_refusal he doc mode⟩
  · have hr' : ∀ error, ¬ MoveRefusal source target error := fun error he => hr ⟨error, he⟩
    by_cases hm : Movable doc source target
    · obtain ⟨_, _, _, _, _, _, ho, ha, hb, hmoved, hold⟩ := exists_resolve_of_movable hr' hm
      obtain ⟨_, -, -, he⟩ := moveStep_of_resolve ho ha hb hmoved hold mode
      exact .inr (.inr ⟨hr', hm, _, he⟩)
    · exact .inr (.inl ⟨hr', hm, moveStep_of_not_movable hr' hm mode⟩)

/-! ## Verdicts -/

/-- A move is refused for what its paths are, with the reason. -/
theorem moveStep_refused_iff {doc : Json} {source target : Path} {mode : AdjacentMode}
    {error : EditError} :
    (doc.moveStep source target mode).verdict = .refused error ↔
      MoveRefusal source target error := by
  constructor
  · intro h
    rcases moveStep_cases doc source target mode with
      ⟨reason, hr, he⟩ | ⟨-, -, he⟩ | ⟨-, -, result, he⟩ <;> rw [he] at h
    · obtain rfl : reason = error := Verdict.refused.inj h
      exact hr
    · contradiction
    · contradiction
  · intro h
    rw [moveStep_of_refusal h]
    rfl

theorem moveStep_applied_iff {doc : Json} {source target : Path} {mode : AdjacentMode} :
    (doc.moveStep source target mode).verdict = .done .applied ↔
      (∀ error, ¬ MoveRefusal source target error) ∧ Movable doc source target := by
  rcases moveStep_cases doc source target mode with
    ⟨error, hr, he⟩ | ⟨hr, hm, he⟩ | ⟨hr, hm, result, he⟩ <;> rw [he]
  · exact ⟨fun h => by simp at h, fun h => absurd hr (h.1 error)⟩
  · exact ⟨fun h => by simp at h, fun h => absurd h.2 hm⟩
  · exact ⟨fun _ => ⟨hr, hm⟩, fun _ => rfl⟩

theorem moveStep_skipped_iff {doc : Json} {source target : Path} {mode : AdjacentMode} :
    (doc.moveStep source target mode).verdict = .done .skipped ↔
      (∀ error, ¬ MoveRefusal source target error) ∧ ¬ Movable doc source target := by
  rcases moveStep_cases doc source target mode with
    ⟨error, hr, he⟩ | ⟨hr, hm, he⟩ | ⟨hr, hm, result, he⟩ <;> rw [he]
  · exact ⟨fun h => by simp at h, fun h => absurd hr (h.1 error)⟩
  · exact ⟨fun _ => ⟨hr, hm⟩, fun _ => rfl⟩
  · exact ⟨fun h => by simp at h, fun h => absurd hm h.2⟩

/-! ## Where the element goes -/

/-- `result` is `doc` with the element at position `i` of the array at `owner` spliced
out, and put beside or in place of what is then the element at position `j` of the
array at `array`.  This is found at its retargeted address, which depends on the two
addresses alone, and is what it was, less the moved element when that was inside it. -/
def Relocated (mode : AdjacentMode) (owner : Path) (i : Nat) (array : Path) (j : Nat)
    (doc result : Json) : Prop :=
  ∃ moved old,
    doc.resolve (owner.elementAt i) = some moved ∧
    doc.resolve (array.elementAt j) = some old ∧
    (doc.without owner i).resolve
        ((array.retarget owner i).elementAt (retargetIndex owner i array j)) =
      some (remnant owner i (array.elementAt j) old) ∧
    Placed mode (array.retarget owner i) (retargetIndex owner i array j) moved
      (doc.without owner i) result

theorem relocated_of_applied {doc : Json} {source target owner array : Path} {i j : Nat}
    {mode : AdjacentMode} (ho : source.owningArray = some (owner, i))
    (ha : target.owningArray = some (array, j))
    (h : (doc.moveStep source target mode).verdict = .done .applied) :
    Relocated mode owner i array j doc (doc.moveStep source target mode).document := by
  obtain ⟨hr, hm⟩ := moveStep_applied_iff.1 h
  obtain ⟨owner', i', array', j', moved, old, ho', ha', hb, hmoved, hold⟩ :=
    exists_resolve_of_movable hr hm
  obtain ⟨rfl, rfl⟩ := Prod.mk.inj (Option.some.inj (ho'.symm.trans ho))
  obtain ⟨rfl, rfl⟩ := Prod.mk.inj (Option.some.inj (ha'.symm.trans ha))
  obtain ⟨items, hitems, hi, he⟩ := moveStep_of_resolve ho ha hb hmoved hold mode
  have hlt := (List.getElem?_eq_some_iff.1 hi).1
  refine ⟨moved, old, hmoved, hold, resolve_elementAt_eq_some_iff.2 ⟨items, hitems, hi⟩, ?_⟩
  rw [he]
  exact placed_spliceItems hitems hlt mode moved

/-- **Moves relocate.** A move is refused exactly when an end stands for no element or
the target lies inside the source, each with its reason; otherwise it is carried out
exactly when the document has the two elements, and skipped when it has not.  Carried
out, it takes the source out of its array and puts it beside, or in place of, the
target, wherever that has gone; and without it the document is the old one less the
source. -/
theorem moveStep_relocates (doc : Json) (source target : Path) (mode : AdjacentMode) :
    (∀ error, (doc.moveStep source target mode).verdict = .refused error ↔
      MoveRefusal source target error) ∧
    ((doc.moveStep source target mode).verdict = .done .applied ↔
      (∀ error, ¬ MoveRefusal source target error) ∧ Movable doc source target) ∧
    ((doc.moveStep source target mode).verdict = .done .skipped ↔
      (∀ error, ¬ MoveRefusal source target error) ∧ ¬ Movable doc source target) ∧
    ∀ owner i array j, source.owningArray = some (owner, i) →
      target.owningArray = some (array, j) →
      (doc.moveStep source target mode).verdict = .done .applied →
      Relocated mode owner i array j doc (doc.moveStep source target mode).document :=
  ⟨fun _ => moveStep_refused_iff, moveStep_applied_iff, moveStep_skipped_iff,
    fun _ _ _ _ => relocated_of_applied⟩

/-- A first step moves before a step nested in the second one, whose address shifts
when the first one goes. -/
theorem moveStep_relocates_into_shifted_branch :
    let doc : Json := .obj [("steps", .arr [
      .obj [("log", .str "a")],
      .obj [("choice", .obj [("steps", .arr [.obj [("to", .str "b")]])])]])]
    let steps : Path := ⟨[.name "steps"], by simp⟩
    let source : Path := (steps.elementAt 0).child "log"
    let branch : Path := ((steps.elementAt 1).child "choice").child "steps"
    let target : Path := (branch.elementAt 0).child "to"
    (doc.moveStep source target .before).verdict = .done .applied ∧
      Relocated .before steps 0 branch 0 doc (doc.moveStep source target .before).document ∧
      (doc.moveStep source target .before).document = .obj [("steps", .arr [
        .obj [("choice", .obj [("steps", .arr [
          .obj [("log", .str "a")], .obj [("to", .str "b")]])])]])] := by
  intro doc steps source branch target
  have ha : (doc.moveStep source target .before).verdict = .done .applied := by decide +kernel
  have hs : source.owningArray = some (steps, 0) := by decide +kernel
  have ht : target.owningArray = some (branch, 0) := by decide +kernel
  refine ⟨ha, ?_, by decide +kernel⟩
  exact (moveStep_relocates doc source target .before).2.2.2 steps 0 branch 0 hs ht ha

end Json

end FlowTree
