import FlowTree.Json.Value
import FlowTree.Path.Basic

/-!
# FlowTree.Tree.Lookup

Looking up and overwriting nodes of a document by path.

* `Json.get?` — the node that steps lead to, `none` as soon as one leads nowhere;
* `Json.overwrite` — a node replaced in its place;
* `get?_append` — following steps in two parts;
* `get?_overwrite_self` — what was written is what is found.
-/

namespace FlowTree

namespace Json

/-- The node that one step leads to: a key of an object or a position of an array. -/
def step? : Segment → Json → Option Json
  | .name key, .obj fields => Fields.get? key fields
  | .index i, .arr items => items[i]?
  | _, _ => none

/-- The node that steps lead to. -/
def get? : List Segment → Json → Option Json
  | [], doc => some doc
  | s :: rest, doc => (step? s doc).bind (get? rest)

/-- A container with the node that one step leads to replaced. -/
def putStep : Segment → Json → Json → Json
  | .name key, child, .obj fields => .obj (Fields.put key child fields)
  | .index i, child, .arr items => .arr (items.set i child)
  | _, _, doc => doc

/-- A document with the node that steps lead to replaced; where they lead nowhere
it stays as it is. -/
def overwrite : List Segment → Json → Json → Json
  | [], value, _ => value
  | s :: rest, value, doc =>
    match step? s doc with
    | some child => putStep s (overwrite rest value child) doc
    | none => doc

/-- The node at a path. -/
def resolve (doc : Json) (path : Path) : Option Json := doc.get? path.segments

/-! ## Equations -/

@[simp] theorem get?_nil (doc : Json) : get? [] doc = some doc := rfl

theorem get?_cons (s : Segment) (rest : List Segment) (doc : Json) :
    get? (s :: rest) doc = (step? s doc).bind (get? rest) := rfl

/-- Following steps in two parts. -/
theorem get?_append (front back : List Segment) (doc : Json) :
    get? (front ++ back) doc = (get? front doc).bind (get? back) := by
  induction front generalizing doc with
  | nil => rfl
  | cons s rest ih =>
    rw [List.cons_append, get?_cons, get?_cons]
    cases step? s doc with
    | none => rfl
    | some child => exact ih child

@[simp] theorem overwrite_nil (value doc : Json) : overwrite [] value doc = value := rfl

/-- Putting back the node that a step leads to changes nothing. -/
theorem putStep_of_step? {s : Segment} {doc child : Json} (h : step? s doc = some child) :
    putStep s child doc = doc := by
  cases s <;> cases doc <;> simp_all [step?, putStep, Fields.put_of_get?]
  obtain ⟨hi, rfl⟩ := List.getElem?_eq_some_iff.1 h
  simp

/-- The step that was taken finds what was put there. -/
theorem step?_putStep_self {s : Segment} {doc child : Json} (value : Json)
    (h : step? s doc = some child) : step? s (putStep s value doc) = some value := by
  cases s <;> cases doc <;> simp_all [step?, putStep]
  obtain ⟨hi, -⟩ := List.getElem?_eq_some_iff.1 h
  simp [hi]

/-- What was written is what is found. -/
theorem get?_overwrite_self {path : List Segment} {doc old : Json} (value : Json)
    (h : get? path doc = some old) : get? path (overwrite path value doc) = some value := by
  induction path generalizing doc with
  | nil => rfl
  | cons s rest ih =>
    rw [get?_cons] at h
    cases hs : step? s doc with
    | none => simp [hs] at h
    | some child =>
      have hc : get? rest child = some old := by simpa [hs] using h
      simp [overwrite, hs, get?_cons, step?_putStep_self _ hs, ih hc]

end Json

end FlowTree
