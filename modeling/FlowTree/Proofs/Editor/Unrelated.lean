import FlowTree.Editor
import FlowTree.Proofs.Tree.OneNode

/-!
# FlowTree.Proofs.Editor.Unrelated

Edits of unrelated arrays, which can be made in either order.

An edit of an element reads its array and nothing else, and writes there only.  So an edit
of an array that is neither inside the other nor around it comes to the same before and
after, and the two together leave one document.

* `Json.verdict_editAt_of_apart`, `Json.document_editAt_comm` — edits of nodes apart from
  each other;
* `Action.EditsArray` — the actions on the elements of an array, each an edit of the array;
* `Editor.act_comm_of_apart` — actions on unrelated arrays commute.
-/

namespace FlowTree

open FlowTree.Path

namespace Json

/-! ## Edits apart from each other -/

variable {p q : Path}

/-- What has been edited apart from a node does not decide on it. -/
theorem verdict_editAt_of_apart (h : Apart p.segments q.segments) (f g : Json → Option Json)
    (doc : Json) :
    ((doc.editAt (some p) f).document.editAt (some q) g).verdict =
      (doc.editAt (some q) g).verdict := by
  have hq : (doc.editAt (some p) f).document.resolve q = doc.resolve q := by
    rw [document_editAt]
    exact get?_modify_of_apart h _ doc
  rw [verdict_editAt, verdict_editAt, hq]

/-- Edits apart from each other leave the same document in either order. -/
theorem document_editAt_comm (h : Apart p.segments q.segments) (f g : Json → Option Json)
    (doc : Json) :
    ((doc.editAt (some p) f).document.editAt (some q) g).document =
      ((doc.editAt (some q) g).document.editAt (some p) f).document := by
  simp only [document_editAt]
  exact modify_comm h.symm _ _ doc

end Json

/-! ## Actions on the elements of an array -/

/-- An action on an element of the array at `owner`: the element that its path addresses is
replaced, removed or given a neighbour. -/
inductive Action.EditsArray (owner : Path) : Action → Prop where
  | insertAdjacent {path : Path} {i : Nat} (h : path.owningArray = some (owner, i))
    (value : Json) (mode : AdjacentMode) : EditsArray owner (.insertAdjacent path value mode)
  | replace {path : Path} {i : Nat} (h : path.owningArray = some (owner, i)) (value : Json) :
    EditsArray owner (.replace path value)
  | remove {path : Path} {i : Nat} (h : path.owningArray = some (owner, i)) :
    EditsArray owner (.remove path)

/-- An action on an element is an edit of the array. -/
theorem Action.EditsArray.exists_editAt {owner : Path} {action : Action}
    (h : action.EditsArray owner) (c : Context) :
    ∃ f : Json → Option Json, ∀ d : Document,
      Editor.act c d action = d.ofEdited (d.value.editAt (some owner) f) := by
  cases h with
  | @insertAdjacent path i hp value mode =>
      exact ⟨Json.spliceIn mode i value, fun d =>
        congrArg d.ofEdited (Json.insertAdjacent_of_owningArray hp d.value value mode)⟩
  | @replace path i hp value =>
      refine ⟨Json.spliceIn .replace i value, fun d => congrArg d.ofEdited ?_⟩
      rw [Json.replace_of_owningArray hp, Json.insertAdjacent_of_owningArray hp]
  | @remove path i hp =>
      -- the element may go, or a property of it; the array is edited either way
      rcases owningArray_eq_some_iff.1 hp with rfl | ⟨key, rfl⟩
      · exact ⟨Json.spliceOut i, fun d =>
          congrArg d.ofEdited (Json.remove_elementAt_eq_editAt d.value owner i)⟩
      · exact ⟨Json.spliceOutProperty i key, fun d =>
          congrArg d.ofEdited (Json.remove_child_elementAt_eq_editAt d.value owner i key)⟩

namespace Editor

/-- **Unrelated arrays.** Two insertions, replacements or removals of elements, whose arrays
are not inside each other, can be performed in either order: each comes to the same, carried
out or skipped, whether it goes first or second, and the document at the end is the same. -/
theorem act_comm_of_apart (c : Context) (d : Document) {p q : Path} {a b : Action}
    (ha : a.EditsArray p) (hb : b.EditsArray q) (h : Apart p.segments q.segments) :
    (act c (act c d a).1 b).2 = (act c d b).2 ∧
    (act c (act c d b).1 a).2 = (act c d a).2 ∧
    (act c (act c d a).1 b).1 = (act c (act c d b).1 a).1 := by
  obtain ⟨f, hf⟩ := ha.exists_editAt c
  obtain ⟨g, hg⟩ := hb.exists_editAt c
  simp only [hf, hg]
  refine ⟨Json.verdict_editAt_of_apart h f g d.value,
    Json.verdict_editAt_of_apart h.symm g f d.value, ?_⟩
  exact congrArg (Document.mk · d.root) (Json.document_editAt_comm h f g d.value)

/-- A clause behind another one, and a step that goes with its holder in the next step but
one. -/
theorem act_comm_clause_and_step :
    let clause : Json := .obj [("simple", .str "a")]
    let choice : Json := .obj [("choice", .obj [("when", .arr [clause])])]
    let filter : Json := .obj [("filter", .obj [("steps", .arr [.obj [("log", .str "b")]])])]
    let d : Document := ⟨.obj [("route", .obj [("steps", .arr [choice, filter])])], "route"⟩
    let steps : Path := (Path.root "route").child "steps"
    let clauses : Path := ((steps.elementAt 0).child "choice").child "when"
    let filtered : Path := ((steps.elementAt 1).child "filter").child "steps"
    let insertion : Action := .insertAdjacent (clauses.elementAt 0) (.obj []) .after
    let removal : Action := .remove ((filtered.elementAt 0).child "log")
    insertion.EditsArray clauses ∧ removal.EditsArray filtered ∧
    Apart clauses.segments filtered.segments ∧
    (act .builtin (act .builtin d insertion).1 removal).2 = .done .applied ∧
    (act .builtin (act .builtin d removal).1 insertion).2 = .done .applied ∧
    (act .builtin (act .builtin d insertion).1 removal).1 =
      (act .builtin (act .builtin d removal).1 insertion).1 := by
  intro clause choice filter d steps clauses filtered insertion removal
  have hi : insertion.EditsArray clauses := .insertAdjacent (owningArray_elementAt _ _) _ _
  have hr : removal.EditsArray filtered := .remove (owningArray_child_elementAt _ _ _)
  have hapart : Apart clauses.segments filtered.segments := ⟨by decide, by decide⟩
  obtain ⟨hremoved, hinserted, hsame⟩ := act_comm_of_apart .builtin d hi hr hapart
  exact ⟨hi, hr, hapart, hremoved.trans (by decide +kernel), hinserted.trans (by decide +kernel),
    hsame⟩

end Editor

end FlowTree
