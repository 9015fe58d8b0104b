import FlowTree.Path.Segment

/-!
# FlowTree.Path.Basic

Paths: addresses of nodes inside a document.

A path is a nonempty list of steps.  Its last two steps, the `Tail`, decide how an
edit at the path is carried out.

* `Path.ancestor`, `Path.parent` — a path without its last steps;
* `Path.child`, `Path.elementAt` — a path with one more step;
* `Path.tail` — what the last two steps address;
* `Path.owningArray` — the array whose element a path addresses, and where.
-/

namespace FlowTree

/-- A nonempty list of steps. -/
structure Path where
  segments : List Segment
  nonempty : segments ≠ []
  deriving DecidableEq

/-- What the last two steps of a path address. -/
inductive Tail where
  /-- A single step: the root of a document. -/
  | root
  /-- A position: an element of an array. -/
  | arrayElement (index : Nat)
  /-- A key behind a position: a property of an element, such as the `log` of
  `steps.0.log`. -/
  | indexedProperty (index : Nat)
  /-- A key behind a key. -/
  | objectProperty
  deriving DecidableEq, Repr

namespace Path

/-- The path with the given steps; there is none without steps. -/
def ofSegments? (segments : List Segment) : Option Path :=
  if h : segments = [] then none else some ⟨segments, h⟩

/-- The path of one key. -/
def root (key : String) : Path := ⟨[.name key], by simp⟩

/-- The number of steps. -/
def length (p : Path) : Nat := p.segments.length

/-- Whether a path has a single step. -/
def isRoot (p : Path) : Bool := p.length == 1

/-- The first step. -/
def first (p : Path) : Segment := p.segments.head p.nonempty

/-- The last step. -/
def last (p : Path) : Segment := p.segments.getLast p.nonempty

/-- The last key among the steps; for the path of a step, its processor. -/
def lastName? (p : Path) : Option String := p.segments.reverse.findSome? Segment.name?

/-- The path without its last `levels` steps, as long as one is left. -/
def ancestor (p : Path) (levels : Nat) : Option Path :=
  if h : levels < p.segments.length then
    some ⟨p.segments.take (p.segments.length - levels), by
      have := p.nonempty
      simp only [ne_eq, List.take_eq_nil_iff, this, or_false]
      omega⟩
  else none

/-- The path without its last step. -/
def parent (p : Path) : Option Path := p.ancestor 1

/-- The path with one more step. -/
def join (p : Path) (s : Segment) : Path := ⟨p.segments ++ [s], by simp⟩

/-- The path of a key below. -/
def child (p : Path) (key : String) : Path := p.join (.name key)

/-- The path of an element below. -/
def elementAt (p : Path) (index : Nat) : Path := p.join (.index index)

/-- Whether a path is another one or lies below it. -/
def startsWith (p ancestor : Path) : Bool := ancestor.segments.isPrefixOf p.segments

/-- What steps, given last one first, address. -/
def tailOfReversed : List Segment → Tail
  | .index i :: _ :: _ => .arrayElement i
  | .name _ :: .index i :: _ => .indexedProperty i
  | .name _ :: .name _ :: _ => .objectProperty
  | _ => .root

/-- What the last two steps address. -/
def tail (p : Path) : Tail := tailOfReversed p.segments.reverse

/-- The array whose element the path addresses, with the position of the element.
A property of an element stands for the element; a path without an array before
that position has none. -/
def owningArray (p : Path) : Option (Path × Nat) :=
  match p.tail with
  | .arrayElement i => (p.ancestor 1).map (·, i)
  | .indexedProperty i => (p.ancestor 2).map (·, i)
  | .root | .objectProperty => none

/-- The order of paths: step by step, a path before those below it. -/
def order (p q : Path) : Ordering := compareLists p.segments q.segments
where
  /-- Lists compared at the first step where they differ. -/
  compareLists : List Segment → List Segment → Ordering
    | [], [] => .eq
    | [], _ :: _ => .lt
    | _ :: _, [] => .gt
    | a :: as, b :: bs => (a.order b).then (compareLists as bs)

end Path

end FlowTree
