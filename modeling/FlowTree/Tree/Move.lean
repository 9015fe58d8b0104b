import FlowTree.Tree.Splice

/-!
# FlowTree.Tree.Move

Moving a step beside, or in place of, another one.

The source is spliced out first, which shifts the positions behind it; the path
of the target is shifted along before the step is put there.  Both ends are
looked up before the document is touched.

* `Path.retarget` — a path after an element was spliced out of an array;
* `Json.moveStep` — the move.
-/

namespace FlowTree

namespace Path

/-- Steps after the element at position `i` of the array at `owner` was spliced
out: a position behind it, in that array, is one less. -/
def retargetSegments (i : Nat) : List Segment → List Segment → List Segment
  | [], .index j :: rest => .index (if i < j then j - 1 else j) :: rest
  | o :: owner, s :: rest => s :: (if o = s then retargetSegments i owner rest else rest)
  | _, path => path

theorem length_retargetSegments (i : Nat) (owner path : List Segment) :
    (retargetSegments i owner path).length = path.length := by
  fun_induction retargetSegments i owner path with
  | case1 => simp
  | case2 o owner s rest ih => by_cases h : o = s <;> simp_all
  | case3 => rfl

/-- A path after the element at position `i` of the array at `owner` was spliced
out. -/
def retarget (path owner : Path) (i : Nat) : Path :=
  ⟨retargetSegments i owner.segments path.segments, by
    intro h
    have := length_retargetSegments i owner.segments path.segments
    rw [h] at this
    exact path.nonempty (List.length_eq_zero_iff.1 this.symm)⟩

end Path

namespace Json

/-- Whether an array has an element at a position. -/
def hasElement (i : Nat) : Option Json → Bool
  | some (.arr items) => i < items.length
  | _ => false

/-- Moves the step at one path beside, or in place of, the step at another one.  A
step cannot go below itself, and stays where it is when both are the same. -/
def moveStep (doc : Json) (source target : Path) (mode : AdjacentMode) : Edited :=
  match source.owningArray, target.owningArray with
  | none, _ => .refused doc (.unsupportedTail source)
  | some _, none => .refused doc (.unsupportedTail target)
  | some (sourceOwner, i), some (targetOwner, j) =>
    let sourceElement := sourceOwner.elementAt i
    let targetElement := targetOwner.elementAt j
    if targetElement = sourceElement then .skipped doc
    else if targetElement.startsWith sourceElement then
      .refused doc (.moveIntoSelf source target)
    else match doc.resolve sourceElement with
      | none => .skipped doc
      | some moved =>
        if hasElement j (doc.resolve targetOwner) then
          (doc.remove sourceElement).document.insertAdjacent (target.retarget sourceOwner i)
            moved mode
        else .skipped doc

end Json

end FlowTree
