import FlowTree.Tree.Lookup

/-!
# FlowTree.Tree.Clip

Detached copies of steps, ready to be put elsewhere.
-/

namespace FlowTree

/-- A detached copy of a step. -/
structure Clip where
  processor : String
  definition : Json
  deriving DecidableEq

namespace Clip

/-- The copy as a record. -/
def toJson (clip : Clip) : Json :=
  .obj [("processorName", .str clip.processor), ("definition", clip.definition)]

/-- The element of a branch that holds the step: an object with the processor as
its only key. -/
def holder (clip : Clip) : Json := .obj [(clip.processor, clip.definition)]

end Clip

/-- A copy of the step at a path, named by the last key of the path. -/
def Json.copy (doc : Json) (path : Path) : Option Clip := do
  let definition ← doc.resolve path
  let processor ← path.lastName?
  return ⟨processor, definition⟩

end FlowTree
