import FlowTree.Tree.Child
import FlowTree.Tree.Move

/-!
# FlowTree.Proofs.Tree.RootKeys

The keys of a document's outermost object, under every edit.

An edit of steps puts a node in the place of one that is there, below the outermost
object, and so leaves its keys alone.  Only a write can bring a key in: the first
step of its path, when this is a key that is not there yet.

* `keys_overwrite`, `keys_editAt` — a node put in place of another one;
* `keys_insertChild`, `keys_insertAdjacent`, `keys_replace`, `keys_remove`,
  `keys_moveStep` — the edits of steps;
* `keys_set` — a write, with `withStep` for the key that it brings in.
-/

namespace FlowTree

namespace Json

/-- The keys of an object; a value other than an object has none. -/
def keys : Json → List String
  | .obj fields => Fields.keys fields
  | _ => []

theorem keys_eq_singleton_iff {doc : Json} {key : String} :
    doc.keys = [key] ↔ ∃ value, doc = .obj [(key, value)] := by
  constructor
  · intro h
    cases doc with
    | obj fields =>
        obtain ⟨head, rfl, rfl⟩ := List.map_eq_singleton_iff.1 h
        exact ⟨head.2, rfl⟩
    | null | bool | num | str | arr => contradiction
  · rintro ⟨value, rfl⟩
    rfl

/-- A value with keys is an object. -/
theorem exists_eq_obj_of_keys {doc : Json} (h : doc.keys ≠ []) : ∃ fields, doc = .obj fields := by
  cases doc with
  | obj fields => exact ⟨fields, rfl⟩
  | null | bool | num | str | arr => contradiction

/-! ## Nodes put in place -/

theorem keys_putStep {s : Segment} {doc child : Json} (h : step? s doc = some child)
    (value : Json) : (putStep s value doc).keys = doc.keys := by
  cases s with
  | name key =>
      cases doc with
      | obj fields =>
          have hk : key ∈ Fields.keys fields := Fields.mem_keys_of_get? h
          rw [putStep, keys, keys, Fields.keys_put, if_pos hk]
      | null | bool | num | str | arr => contradiction
  | index i => cases doc <;> rfl

/-- A node below the outermost one can change and leave the keys alone. -/
theorem keys_overwrite {path : List Segment} (h : path ≠ []) (value doc : Json) :
    (overwrite path value doc).keys = doc.keys := by
  cases path with
  | nil => contradiction
  | cons s rest =>
      rw [overwrite]
      split
      · rename_i child hs
        exact keys_putStep hs _
      · rfl

theorem keys_editAt (doc : Json) (path : Option Path) (f : Json → Option Json) :
    (doc.editAt path f).document.keys = doc.keys := by
  cases path with
  | none => rfl
  | some path =>
      rw [editAt]
      split
      · exact keys_overwrite path.nonempty _ doc
      · rfl

theorem keys_editNode {steps : List Segment} (h : steps ≠ []) (edit : Json → Edited)
    (doc : Json) : (doc.editNode steps edit).document.keys = doc.keys := by
  unfold editNode
  split
  · rfl
  · exact keys_overwrite h _ doc

/-! ## Edits of steps -/

theorem keys_insertChild (doc : Json) (catalog : Catalog) (path : Path)
    (processor property : String) (value : Json) (mode : ChildMode) :
    (doc.insertChild catalog path processor property value mode).document.keys = doc.keys := by
  exact keys_editNode path.nonempty _ doc

theorem keys_insertAdjacent (doc : Json) (path : Path) (value : Json) (mode : AdjacentMode) :
    (doc.insertAdjacent path value mode).document.keys = doc.keys := by
  unfold insertAdjacent
  split
  · rfl
  · exact keys_editAt doc _ _

theorem keys_replace (doc : Json) (path : Path) (value : Json) :
    (doc.replace path value).document.keys = doc.keys := by
  unfold replace
  split
  · exact keys_insertAdjacent doc path value .replace
  · exact keys_editAt doc _ _

theorem keys_remove (doc : Json) (path : Path) :
    (doc.remove path).document.keys = doc.keys := by
  unfold remove
  split
  · exact keys_editAt doc _ _
  · exact keys_editAt doc _ _
  · exact keys_editAt doc _ _
  · rfl

theorem keys_moveStep (doc : Json) (source target : Path) (mode : AdjacentMode) :
    (doc.moveStep source target mode).document.keys = doc.keys := by
  unfold moveStep
  split
  · rfl
  · rfl
  · dsimp only
    split
    · rfl
    · split
      · rfl
      · split
        · rfl
        · split
          · rw [keys_insertAdjacent, keys_remove]
          · rfl

/-! ## Writes -/

/-- Keys with the one that a step enters. -/
def withStep : Segment → List String → List String
  | .name key, keys => if key ∈ keys then keys else keys ++ [key]
  | .index _, keys => keys

theorem prefix_withStep (s : Segment) (keys : List String) : keys <+: withStep s keys := by
  cases s with
  | name key =>
      rw [withStep]
      split
      · exact List.prefix_refl keys
      · exact List.prefix_append keys [key]
  | index i => exact List.prefix_refl keys

theorem mem_withStep_name (key : String) (keys : List String) :
    key ∈ withStep (.name key) keys := by
  rw [withStep]
  split
  · assumption
  · simp

theorem withStep_of_mem {key : String} {keys : List String} (h : key ∈ keys) :
    withStep (.name key) keys = keys := if_pos h

/-- A path that leads somewhere brings no key in. -/
theorem withStep_of_resolve {doc node : Json} {path : Path} (h : doc.resolve path = some node) :
    withStep path.first doc.keys = doc.keys := by
  obtain ⟨s, rest, hs⟩ := List.exists_cons_of_ne_nil path.nonempty
  have hf : path.first = s := by simp [Path.first, hs]
  rw [resolve, hs, get?_cons] at h
  obtain ⟨child, hc, -⟩ := Option.bind_eq_some_iff.1 h
  rw [hf]
  cases s with
  | index i => rfl
  | name key =>
      cases doc with
      | obj fields => exact withStep_of_mem (Fields.mem_keys_of_get? hc)
      | null | bool | num | str | arr => contradiction

/-- A write into an object brings in the key that it enters, written or skipped. -/
theorem keys_set {doc : Json} (h : doc.keys ≠ []) (path : Path) (value : Json) :
    (doc.set path value).1.keys = withStep path.first doc.keys := by
  obtain ⟨fields, rfl⟩ := exists_eq_obj_of_keys h
  obtain ⟨s, rest, hs⟩ := List.exists_cons_of_ne_nil path.nonempty
  have hf : path.first = s := by simp [Path.first, hs]
  rw [set, hs, hf]
  cases s with
  | name key =>
      have ho : opened (.name key) (.obj fields) = .obj fields := rfl
      rw [setAt_cons_name ho]
      exact Fields.keys_put key _ fields
  | index i => rfl

end Json

end FlowTree
