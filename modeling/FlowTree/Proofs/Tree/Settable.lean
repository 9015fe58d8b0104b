import FlowTree.Proofs.Tree.Walk

/-!
# FlowTree.Proofs.Tree.Settable

Which writes are applied.

A write follows its path through the nodes that are there and makes the rest.  So it
is decided where the nodes end (`Halts`): the last of them has to take the next step,
and everything behind that step is new.  A new container takes every key, and of all
positions the first one only (`Grows`).

* `setAt_placeholder_applied_iff` — what can be made behind a new container;
* `exists_halts` — every path has a longest part that leads somewhere;
* `set_applied_iff` — a write is applied exactly when the rest of its path grows from
  there.
-/

namespace FlowTree

namespace Json

/-- The longest part of a path that leads somewhere is `front`; it leads to `node`,
and `back` is the rest of the path. -/
structure Halts (path : List Segment) (doc : Json) (front : List Segment) (node : Json)
    (back : List Segment) : Prop where
  path_eq : path = front ++ back
  get?_front : get? front doc = some node
  longest : ∀ steps, steps <+: path → (get? steps doc).isSome = true → steps <+: front

/-- Whether a node can have one more node put behind a step: an object any key, an
array the position behind its last element, and null what an empty container can. -/
def takes : Segment → Json → Bool
  | .name _, .obj _ => true
  | .index i, .arr items => i = items.length
  | .name _, .null => true
  | .index i, .null => i = 0
  | _, _ => false

/-- The rest of a path can be made from a node on: the node takes the next step, and
every position behind it is the first one. -/
def Grows (node : Json) : List Segment → Prop
  | [] => True
  | s :: rest => takes s node = true ∧ ∀ i, Segment.index i ∈ rest → i = 0

/-! ## One step -/

/-- Where a step leads nowhere, opening the node makes way for it exactly when the
node takes one more. -/
theorem admits_opened_iff {s : Segment} {node : Json} (h : step? s node = none) :
    admits s (opened s node) = true ↔ takes s node = true := by
  cases s with
  | name key => cases node <;> simp [admits, opened, isNull, containerFor, takes]
  | index i =>
      cases node with
      | arr items =>
          have hi : items.length ≤ i := by simpa [step?] using h
          simp only [admits, opened, isNull, takes, Bool.false_eq_true, ↓reduceIte,
            decide_eq_true_eq]
          omega
      | null | bool | num | str | obj => simp [admits, opened, isNull, containerFor, takes]

/-- A write is applied when its first step is admitted and the rest is applied behind
it. -/
theorem setAt_cons_applied_iff {s : Segment} {rest : List Segment} {value doc : Json} :
    (setAt (s :: rest) value doc).2 = .applied ↔
      admits s (opened s doc) = true ∧ (setAt rest value (entered s rest doc)).2 = .applied := by
  cases ha : admits s (opened s doc) with
  | false => simp [setAt_cons_of_not_admits rest value ha]
  | true => simp [setAt_cons_of_admits rest value ha]

/-! ## Nodes that are made -/

/-- Everything behind a new container is new, and so no position but the first can be
reached there. -/
theorem setAt_placeholder_applied_iff (path : List Segment) (value : Json) :
    (setAt path value (placeholder path)).2 = .applied ↔
      ∀ i, Segment.index i ∈ path → i = 0 := by
  induction path with
  | nil => simp
  | cons s rest ih =>
      have hopened : opened s (containerFor s) = containerFor s :=
        opened_of_isNull_eq_false s (isNull_containerFor s)
      have hentered : entered s rest (containerFor s) = placeholder rest := by
        rw [entered, step?_containerFor, Option.getD_none]
      rw [placeholder, setAt_cons_applied_iff, hopened, hentered, ih]
      cases s with
      | name key => simp [containerFor, admits]
      | index i => simp [containerFor, admits]

/-! ## Where the nodes end -/

/-- Every path has a longest part that leads somewhere; the empty one leads to the
document itself. -/
theorem exists_halts (path : List Segment) (doc : Json) :
    ∃ front node back, Halts path doc front node back := by
  induction path generalizing doc with
  | nil => exact ⟨[], doc, [], rfl, rfl, fun steps h _ => h⟩
  | cons s rest ih =>
      cases hs : step? s doc with
      | none =>
          refine ⟨[], doc, s :: rest, rfl, rfl, fun steps hp hg => ?_⟩
          cases steps with
          | nil => exact List.nil_prefix
          | cons t steps =>
              obtain rfl : t = s := (List.cons_prefix_cons.1 hp).1
              simp [get?_cons, hs] at hg
      | some child =>
          obtain ⟨front, node, back, h⟩ := ih child
          refine ⟨s :: front, node, back, ?_, ?_, fun steps hp hg => ?_⟩
          · rw [h.path_eq, List.cons_append]
          · rw [get?_cons, hs, Option.bind_some, h.get?_front]
          · cases steps with
            | nil => exact List.nil_prefix
            | cons t steps =>
                obtain ⟨rfl, hsteps⟩ := List.cons_prefix_cons.1 hp
                have hc : (get? steps child).isSome = true := by simpa [get?_cons, hs] using hg
                exact List.cons_prefix_cons.2 ⟨rfl, h.longest steps hsteps hc⟩

/-- The next step leads nowhere, or a longer part would lead somewhere. -/
theorem Halts.step?_eq_none {path front rest : List Segment} {doc node : Json} {s : Segment}
    (h : Halts path doc front node (s :: rest)) : step? s node = none := by
  cases hs : step? s node with
  | none => rfl
  | some child =>
      have hp : front ++ [s] <+: path := ⟨rest, by rw [h.path_eq]; simp⟩
      have hg : (get? (front ++ [s]) doc).isSome = true := by
        simp [get?_append, h.get?_front, get?_cons, hs]
      have hlength := (h.longest _ hp hg).length_le
      rw [List.length_append, List.length_singleton] at hlength
      omega

/-- A write is decided where the nodes end. -/
theorem Halts.setAt_applied_iff {path front back : List Segment} {doc node : Json}
    (h : Halts path doc front node back) (value : Json) :
    (setAt path value doc).2 = .applied ↔ Grows node back := by
  rw [h.path_eq, setAt_append h.get?_front]
  cases back with
  | nil => simp [Grows]
  | cons s rest =>
      have hs : step? s node = none := h.step?_eq_none
      have he : entered s rest node = placeholder rest := by
        rw [entered, hs, Option.getD_none]
      rw [setAt_cons_applied_iff, he, setAt_placeholder_applied_iff, admits_opened_iff hs, Grows]

/-- **Settable paths.** Of every path a longest part leads somewhere, and a write at the
path is applied exactly when nothing is left of it there, or when the node takes the
next step — an object a key, an array the position behind its last element, null a key
or the first position — and every position behind that step is the first one. -/
theorem set_applied_iff (doc : Json) (path : Path) (value : Json) :
    ∃ front node back, Halts path.segments doc front node back ∧
      ((doc.set path value).2 = .applied ↔ Grows node back) := by
  obtain ⟨front, node, back, h⟩ := exists_halts path.segments doc
  exact ⟨front, node, back, h, h.setAt_applied_iff value⟩

end Json

end FlowTree
