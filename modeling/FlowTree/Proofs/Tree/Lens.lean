import FlowTree.Proofs.Tree.Walk

/-!
# FlowTree.Proofs.Tree.Lens

Writing and looking up are a lawful lens, whatever is created on the way.

* `get?_setAt_self` — what was written is what is found;
* `setAt_setAt` — of two values written at one path the second stays;
* `setAt_of_get?` — writing what is there changes nothing;
* `get?_setAt_of_apart` — apart from the path nothing has happened, and the
  containers made on the way hold nothing else;
* `set_lens` — the four together.
-/

namespace FlowTree

namespace Json

open FlowTree.Path

theorem get?_setAt_self {path : List Segment} {value doc : Json}
    (h : (setAt path value doc).2 = .applied) :
    get? path (setAt path value doc).1 = some value := by
  induction path generalizing doc with
  | nil => rfl
  | cons s rest ih =>
      cases ha : admits s (opened s doc) with
      | false =>
          rw [setAt_cons_of_not_admits rest value ha] at h
          contradiction
      | true =>
          rw [setAt_cons_of_admits rest value ha] at h ⊢
          rw [get?_cons, step?_putIn_self _ ha, Option.bind_some]
          exact ih h

/-- Of two values written at one path the second stays; where the write is skipped
the second one finds what the first one left behind. -/
theorem setAt_setAt (path : List Segment) (first second doc : Json) :
    setAt path second (setAt path first doc).1 = setAt path second doc := by
  induction path generalizing doc with
  | nil => rfl
  | cons s rest ih =>
      cases ha : admits s (opened s doc) with
      | false =>
          have ha' : admits s (opened s (opened s doc)) = false := by rw [opened_opened, ha]
          rw [setAt_cons_of_not_admits rest first ha, setAt_cons_of_not_admits rest second ha',
            setAt_cons_of_not_admits rest second ha, opened_opened]
      | true =>
          rw [setAt_cons_of_admits rest first ha, setAt_cons_of_admits rest second ha]
          -- the second write enters what the first one has put in
          generalize hc : (setAt rest first (entered s rest doc)).1 = child
          have ho : opened s (putIn s child (opened s doc)) = putIn s child (opened s doc) :=
            opened_putIn child ha
          have he : entered s rest (putIn s child (opened s doc)) = child := by
            rw [entered, step?_putIn_self child ha, Option.getD_some]
          have ha' : admits s (opened s (putIn s child (opened s doc))) = true := by
            rw [ho]
            exact admits_putIn child ha
          rw [setAt_cons_of_admits rest second ha', he, ho, putIn_putIn _ _ ha, ← hc, ih]

theorem setAt_of_get? {path : List Segment} {value doc : Json}
    (h : get? path doc = some value) : setAt path value doc = (doc, .applied) := by
  rw [setAt_of_resolve h, overwrite_of_get? h]

/-- A step into the node behind another step finds what it finds in the document: a
container made for the way has nothing in it. -/
theorem get?_entered {s : Segment} {rest others : List Segment} (doc : Json)
    (h : others ≠ []) : get? others (entered s rest doc) = get? (s :: others) doc := by
  obtain ⟨t, others, rfl⟩ := List.exists_cons_of_ne_nil h
  rw [get?_cons s]
  cases hs : step? s doc with
  | some child => rw [entered, hs, Option.getD_some, Option.bind_some]
  | none => rw [entered, hs, Option.getD_none, get?_cons, step?_placeholder]; rfl

/-- Apart from the path nothing has happened, written or skipped. -/
theorem get?_setAt_of_apart {path other : List Segment} (h : Apart path other)
    (value doc : Json) : get? other (setAt path value doc).1 = get? other doc := by
  induction path generalizing other doc with
  | nil => exact absurd h (not_apart_nil_left other)
  | cons s rest ih =>
      cases other with
      | nil => exact absurd h (not_apart_nil_right _)
      | cons t others =>
          cases ha : admits s (opened s doc) with
          | false =>
              rw [setAt_cons_of_not_admits rest value ha, get?_cons, get?_cons, step?_opened]
          | true =>
              rw [setAt_cons_of_admits rest value ha]
              by_cases hst : s = t
              · -- both go on behind one step, where a container may just have been made
                subst hst
                have hr : Apart rest others := (apart_cons.1 h).resolve_left fun hne => hne rfl
                have hne : others ≠ [] := fun he => not_apart_nil_right rest (he ▸ hr)
                rw [get?_cons, step?_putIn_self _ ha, Option.bind_some, ih hr,
                  get?_entered doc hne]
              · rw [get?_cons, get?_cons, step?_putIn_of_ne _ ha hst, step?_opened]

/-- **Lens laws.** A written value is found at its path; of two values written at
one path the second stays, the order of fields counted; writing what is there
changes nothing; and every path that lies neither above nor below the written one
leads where it led before. -/
theorem set_lens (doc : Json) (path : Path) (first second : Json) :
    ((doc.set path first).2 = .applied →
        (doc.set path first).1.resolve path = some first) ∧
      (doc.set path first).1.set path second = doc.set path second ∧
      (doc.resolve path = some first → doc.set path first = (doc, .applied)) ∧
      ∀ other : Path, Apart path.segments other.segments →
        (doc.set path first).1.resolve other = doc.resolve other :=
  ⟨get?_setAt_self, setAt_setAt _ _ _ _, setAt_of_get?,
    fun _ h => get?_setAt_of_apart h _ _⟩

/-- A write through a null node and a missing one: both become containers, and a
position beside the written one still leads nowhere. -/
theorem set_lens_through_null :
    let doc : Json := .obj [("kept", .bool true), ("gap", .null)]
    let path : Path := ⟨[.name "gap", .index 0, .name "log"], by simp⟩
    let other : Path := ⟨[.name "gap", .index 1], by simp⟩
    let result : Json := (doc.set path (.str "b")).1
    (doc.set path (.str "b")).2 = .applied ∧ result.resolve path = some (.str "b") ∧
      (doc.set path (.str "a")).1.set path (.str "b") = doc.set path (.str "b") ∧
      result.set path (.str "b") = (result, .applied) ∧
      result.resolve other = none := by
  intro doc path other result
  have hw : (doc.set path (.str "b")).2 = .applied := by decide +kernel
  have hr : result.resolve path = some (.str "b") :=
    (set_lens doc path (.str "b") .null).1 hw
  have hp : Apart path.segments other.segments := by
    simp [path, other, apart_cons]
  have ho : doc.resolve other = none := by decide +kernel
  refine ⟨hw, hr, (set_lens doc path (.str "a") (.str "b")).2.1,
    (set_lens result path (.str "b") .null).2.2.1 hr, ?_⟩
  exact ((set_lens doc path (.str "b") .null).2.2.2 other hp).trans ho

end Json

end FlowTree
