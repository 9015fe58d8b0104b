import FlowTree.Path.Text
import FlowTree.Tree.Set

/-!
# FlowTree.Tree.Edit

What edits of a document come to, and edits of one node.

A path that leads nowhere is an expected thing in an editor whose document
changes under it: the edit is skipped.  An edit that no document could take is
refused, with the reason.  Either way the document is left as it is.

* `Edited` — a document after an edit, and the verdict on the edit;
* `Json.editAt` — replaces the node at a path by what a function makes of it;
* `editAt_document_of_skipped` — a skipped edit changes nothing.
-/

namespace FlowTree

/-- Why an edit is refused. -/
inductive EditError where
  | unknownStepsProperty (processor property : String)
  | notAnArray (path : Path)
  | unsupportedTail (path : Path)
  | moveIntoSelf (source target : Path)
  | rootRemoval (path : Path)
  deriving DecidableEq

/-- The wording of a refusal. -/
def EditError.message : EditError → String
  | .unknownStepsProperty processor property =>
    "Processor '" ++ processor ++ "' has no steps property named '" ++ property ++ "'"
  | .notAnArray path => "Value at '" ++ path.text ++ "' is not an array"
  | .unsupportedTail path =>
    "Path '" ++ path.text ++ "' does not address an element of an array"
  | .moveIntoSelf source target =>
    "Cannot move '" ++ source.text ++ "' into its own subtree at '" ++ target.text ++ "'"
  | .rootRemoval path =>
    "Path '" ++ path.text ++ "' is the root of the flow; remove the flow instead"

/-- The verdict on an edit. -/
inductive Verdict where
  | done (outcome : Outcome)
  | refused (error : EditError)
  deriving DecidableEq

/-- A document after an edit, with the verdict. -/
structure Edited where
  document : Json
  verdict : Verdict
  deriving DecidableEq

namespace Edited

/-- An edit that was carried out. -/
def applied (document : Json) : Edited := ⟨document, .done .applied⟩

/-- An edit that found nothing to act on. -/
def skipped (document : Json) : Edited := ⟨document, .done .skipped⟩

/-- An edit that was refused. -/
def refused (document : Json) (error : EditError) : Edited := ⟨document, .refused error⟩

@[simp] theorem verdict_applied (document : Json) :
    (applied document).verdict = .done .applied := rfl

@[simp] theorem verdict_skipped (document : Json) :
    (skipped document).verdict = .done .skipped := rfl

@[simp] theorem verdict_refused (document : Json) (error : EditError) :
    (refused document error).verdict = .refused error := rfl

end Edited

namespace Json

/-- Replaces the node at a path by what `f` makes of it.  Without a path, without
a node there, or where `f` makes nothing of it, the edit is skipped. -/
def editAt (doc : Json) (path : Option Path) (f : Json → Option Json) : Edited :=
  match path with
  | none => .skipped doc
  | some path =>
    match (doc.resolve path).bind f with
    | some value => .applied (overwrite path.segments value doc)
    | none => .skipped doc

/-- An edit of one node is carried out or leaves the document as it is. -/
theorem editAt_document_of_skipped {doc : Json} {path : Option Path} {f : Json → Option Json}
    (h : (doc.editAt path f).verdict ≠ .done .applied) : (doc.editAt path f).document = doc := by
  unfold editAt at h ⊢
  split at h
  · rfl
  · split at h
    · simp [Edited.applied] at h
    · simp [Edited.skipped]

end Json

end FlowTree
