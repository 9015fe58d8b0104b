/-!
# FlowTree.Path.Segment

One step of a path: the key of an object or a position in an array.

* `Segment.text` — how a step is written;
* `Segment.ofToken` — the step that a token of a path text stands for;
* `Segment.order` — names before positions, names by code points, positions by
  size.
-/

namespace FlowTree

/-- One step of a path. -/
inductive Segment where
  /-- The key of an object; any string. -/
  | name (key : String)
  /-- A position in an array. -/
  | index (position : Nat)
  deriving DecidableEq, Repr

namespace Segment

/-- One past the largest position that a token can stand for, the `2 ^ 64` of an
unsigned word. -/
def indexLimit : Nat := Nat.pow 2 64

/-- The key of a name. -/
def name? : Segment → Option String
  | .name key => some key
  | .index _ => none

/-- A step as it is written: a key as it is, a position in decimal. -/
def text : Segment → String
  | .name key => key
  | .index position => String.ofList (Nat.toDigits 10 position)

/-- The step of a token: a position when the token is all digits and its value
is below the limit, else a name. -/
def ofToken (token : List Char) : Segment :=
  if token.all Char.isDigit && Nat.ofDigitChars 10 token 0 < indexLimit then
    .index (Nat.ofDigitChars 10 token 0)
  else .name (String.ofList token)

/-- Names come before positions. -/
def order : Segment → Segment → Ordering
  | .name a, .name b => compare a b
  | .name _, .index _ => .lt
  | .index _, .name _ => .gt
  | .index a, .index b => compare a b

end Segment

end FlowTree
