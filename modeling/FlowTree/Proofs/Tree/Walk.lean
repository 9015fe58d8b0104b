import FlowTree.Proofs.Tree.Frame
import FlowTree.Tree.Set

/-!
# FlowTree.Proofs.Tree.Walk

One step of a write, the same for keys and positions.

`Json.setAt` opens the node it stands on, takes a step into it and puts back what
the rest of the write made of the node behind the step.  `Json.admits` says when
the opened node takes the step, `Json.entered` is the node behind it and
`Json.putIn` puts a node back.  What a write does is proved from

* `setAt_cons_of_admits`, `setAt_cons_of_not_admits` — the two ways of one step, and
  `setAt_cons_of_step?` for a step to a node that is there;
* `setAt_append` — all steps to nodes that are there at once;
* `step?_putIn_self`, `step?_putIn_of_ne` — what is found after a node was put in;
* `step?_opened` — opening a node makes nothing to be found in it.
-/

namespace FlowTree

namespace Json

open FlowTree.Path

/-- Whether a container takes a step: an object every key, an array its positions
and the one behind the last. -/
def admits : Segment → Json → Bool
  | .name _, .obj _ => true
  | .index i, .arr items => i ≤ items.length
  | _, _ => false

/-- A container with a node put under a step that it takes. -/
def putIn : Segment → Json → Json → Json
  | .name key, child, .obj fields => .obj (Fields.put key child fields)
  | .index i, child, .arr items => .arr (setOrAppend items i child)
  | _, _, doc => doc

/-- The node behind a step: the one that is there, or a new container for the rest
of the steps. -/
def entered (s : Segment) (rest : List Segment) (doc : Json) : Json :=
  (step? s doc).getD (placeholder rest)

/-! ## Opening -/

@[simp] theorem isNull_containerFor (s : Segment) : (containerFor s).isNull = false := by
  cases s <;> rfl

@[simp] theorem step?_containerFor (s t : Segment) : step? t (containerFor s) = none := by
  cases s <;> cases t <;> rfl

@[simp] theorem step?_placeholder (rest : List Segment) (t : Segment) :
    step? t (placeholder rest) = none := by
  cases rest with
  | nil => cases t <;> rfl
  | cons s rest => exact step?_containerFor s t

theorem isNull_eq_false_of_step? {s : Segment} {doc child : Json} (h : step? s doc = some child) :
    doc.isNull = false := by
  cases doc <;> cases s <;> simp_all [step?, isNull]

theorem opened_of_isNull_eq_false {doc : Json} (s : Segment) (h : doc.isNull = false) :
    opened s doc = doc := by
  simp [opened, h]

@[simp] theorem opened_opened (s : Segment) (doc : Json) :
    opened s (opened s doc) = opened s doc := by
  cases h : doc.isNull <;> simp [opened, h]

/-- Opening a node makes nothing to be found in it. -/
@[simp] theorem step?_opened (s t : Segment) (doc : Json) :
    step? t (opened s doc) = step? t doc := by
  cases h : doc.isNull with
  | false => rw [opened_of_isNull_eq_false s h]
  | true =>
      cases hs : step? t doc with
      | none => simp [opened, h]
      | some child => rw [isNull_eq_false_of_step? hs] at h; contradiction

/-! ## Putting a node in -/

/-- A container takes the steps that lead somewhere in it. -/
theorem admits_of_step? {s : Segment} {doc child : Json} (h : step? s doc = some child) :
    admits s doc = true := by
  cases s with
  | name key => cases doc <;> simp_all [step?, admits]
  | index i =>
      cases doc <;> simp_all [step?, admits]
      exact Nat.le_of_lt (List.getElem?_eq_some_iff.1 h).1

/-- A container that takes a step still takes it with a node put there. -/
theorem admits_putIn {s : Segment} {doc : Json} (child : Json) (h : admits s doc = true) :
    admits s (putIn s child doc) = true := by
  cases s with
  | name key => cases doc <;> simp_all [admits, putIn]
  | index i =>
      cases doc <;> simp_all [admits, putIn, setOrAppend]
      split <;> simp <;> omega

/-- A container that a node was put into is not null. -/
theorem opened_putIn {s : Segment} {doc : Json} (child : Json) (h : admits s doc = true) :
    opened s (putIn s child doc) = putIn s child doc := by
  cases s <;> cases doc <;> simp_all [admits, putIn, opened, isNull]

theorem step?_putIn_self {s : Segment} {doc : Json} (child : Json) (h : admits s doc = true) :
    step? s (putIn s child doc) = some child := by
  cases s with
  | name key => cases doc <;> simp_all [admits, putIn, step?]
  | index i =>
      cases doc with
      | arr items =>
          have hi : i ≤ items.length := by simpa [admits] using h
          by_cases hlt : i < items.length
          · simp [putIn, step?, setOrAppend, hlt]
          · have he : i = items.length := Nat.le_antisymm hi (Nat.not_lt.1 hlt)
            subst he
            simp [putIn, step?, setOrAppend]
      | null | bool | num | str | obj => simp [admits] at h

/-- The other steps find what they found before. -/
theorem step?_putIn_of_ne {s t : Segment} {doc : Json} (child : Json) (h : admits s doc = true)
    (hne : s ≠ t) : step? t (putIn s child doc) = step? t doc := by
  cases s with
  | name key =>
      cases doc <;> cases t <;> simp_all [admits, putIn, step?, Fields.get?_put_of_ne]
  | index i =>
      cases doc with
      | arr items =>
          cases t with
          | name key => rfl
          | index j =>
              have hi : i ≤ items.length := by simpa [admits] using h
              have hij : i ≠ j := fun he => hne (by rw [he])
              simp only [putIn, step?, setOrAppend]
              split
              · rw [List.getElem?_set_ne hij]
              · grind
      | null | bool | num | str | obj => simp [admits] at h

theorem putIn_putIn {s : Segment} {doc : Json} (first second : Json) (h : admits s doc = true) :
    putIn s second (putIn s first doc) = putIn s second doc := by
  cases s with
  | name key => cases doc <;> simp [putIn]
  | index i =>
      cases doc with
      | arr items =>
          have hi : i ≤ items.length := by simpa [admits] using h
          by_cases hlt : i < items.length
          · simp [putIn, setOrAppend, hlt]
          · have he : i = items.length := Nat.le_antisymm hi (Nat.not_lt.1 hlt)
            subst he
            simp [putIn, setOrAppend]
      | null | bool | num | str | obj => simp [admits] at h

theorem putIn_of_step? {s : Segment} {doc child : Json} (h : step? s doc = some child) :
    putIn s child doc = doc := by
  cases s with
  | name key => cases doc <;> simp_all [step?, putIn, Fields.put_of_get?]
  | index i =>
      cases doc <;> simp_all [step?, putIn, setOrAppend]
      obtain ⟨hi, rfl⟩ := List.getElem?_eq_some_iff.1 h
      simp [hi]

/-- Put under a step that leads somewhere, a node takes the place of the one there. -/
theorem putIn_eq_putStep {s : Segment} {doc old : Json} (h : step? s doc = some old)
    (child : Json) : putIn s child doc = putStep s child doc := by
  cases s with
  | name key => cases doc <;> rfl
  | index i =>
      cases doc with
      | arr items =>
          have hi : i < items.length := (List.getElem?_eq_some_iff.1 h).1
          simp [putIn, putStep, setOrAppend, hi]
      | null | bool | num | str | obj => rfl

/-! ## The two ways of one step -/

/-- A write goes on behind a step that the opened node takes. -/
theorem setAt_cons_of_admits {s : Segment} {doc : Json} (rest : List Segment) (value : Json)
    (h : admits s (opened s doc) = true) :
    setAt (s :: rest) value doc =
      (putIn s (setAt rest value (entered s rest doc)).1 (opened s doc),
        (setAt rest value (entered s rest doc)).2) := by
  have he : entered s rest doc = (step? s (opened s doc)).getD (placeholder rest) := by
    rw [step?_opened, entered]
  rw [he]
  cases s with
  | name key =>
      cases ho : opened (.name key) doc with
      | obj fields => exact setAt_cons_name ho
      | null | bool | num | str | arr => simp [ho, admits] at h
  | index i =>
      cases ho : opened (.index i) doc with
      | arr items => exact setAt_cons_index ho (by simpa [ho, admits] using h)
      | null | bool | num | str | obj => simp [ho, admits] at h

/-- Where a node is behind the step, nothing is created for it. -/
theorem setAt_cons_of_step? {s : Segment} {doc child : Json} (rest : List Segment)
    (value : Json) (h : step? s doc = some child) :
    setAt (s :: rest) value doc =
      (putIn s (setAt rest value child).1 doc, (setAt rest value child).2) := by
  have ho : opened s doc = doc := opened_of_isNull_eq_false s (isNull_eq_false_of_step? h)
  have he : entered s rest doc = child := by rw [entered, h, Option.getD_some]
  have ha : admits s (opened s doc) = true := by
    rw [ho]
    exact admits_of_step? h
  rw [setAt_cons_of_admits rest value ha, ho, he]

/-- A write ends at a step that the opened node does not take. -/
theorem setAt_cons_of_not_admits {s : Segment} {doc : Json} (rest : List Segment) (value : Json)
    (h : admits s (opened s doc) = false) :
    setAt (s :: rest) value doc = (opened s doc, .skipped) := by
  cases s with
  | name key => cases ho : opened (.name key) doc <;> simp_all [setAt, admits]
  | index i => cases ho : opened (.index i) doc <;> simp_all [setAt, admits]

/-! ## Nodes that are there -/

/-- A write through a node that is there is a write into this node, and comes to what that
comes to. -/
theorem setAt_append {front : List Segment} {doc node : Json} (h : get? front doc = some node)
    (back : List Segment) (value : Json) :
    setAt (front ++ back) value doc =
      (overwrite front (setAt back value node).1 doc, (setAt back value node).2) := by
  induction front generalizing doc with
  | nil =>
      rw [get?_nil, Option.some.injEq] at h
      rw [List.nil_append, h]
      rfl
  | cons s rest ih =>
      rw [get?_cons] at h
      obtain ⟨child, hs, hc⟩ := Option.bind_eq_some_iff.1 h
      rw [List.cons_append, setAt_cons_of_step? (rest ++ back) value hs, ih hc,
        putIn_eq_putStep hs]
      simp only [overwrite, hs]

/-- A write over a node that is there puts the value in its place. -/
theorem setAt_of_resolve {path : List Segment} {doc old : Json} (h : get? path doc = some old)
    (value : Json) : setAt path value doc = (overwrite path value doc, .applied) := by
  have hset := setAt_append h [] value
  rwa [List.append_nil] at hset

end Json

end FlowTree
