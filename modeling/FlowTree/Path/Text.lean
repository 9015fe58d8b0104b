import FlowTree.Path.Basic

/-!
# FlowTree.Path.Text

Paths as texts: steps joined by dots, `route.from.steps.1.log`.

A token of digits alone is a position and every other token a key.  Empty tokens
and positions with a leading zero are faults, and the leftmost fault is the one
reported.  Keys that hold a dot, or that are empty, have no text of their own.

* `Path.text` — the text of a path;
* `Path.parse` — the path of a text, or its leftmost fault;
* `PathError.message` — the wording of a fault.
-/

namespace FlowTree

/-- Why a text is no path. -/
inductive PathError where
  | empty
  | emptySegment (position : Nat)
  | leadingZero (position : Nat) (token : String)
  deriving DecidableEq, Repr

/-- The wording of a fault. -/
def PathError.message : PathError → String
  | .empty => "Path must not be empty"
  | .emptySegment position =>
    "Path contains an empty segment at position " ++ toString position
  | .leadingZero position token =>
    "Index '" ++ token ++ "' at position " ++ toString position ++ " has a leading zero"

namespace Path

/-- The text of a path. -/
def text (p : Path) : String := ".".intercalate (p.segments.map Segment.text)

/-- The tokens between dots; there is one more than there are dots. -/
def tokens : List Char → List (List Char)
  | [] => [[]]
  | c :: rest =>
    if c = '.' then [] :: tokens rest
    else match tokens rest with
      | token :: others => (c :: token) :: others
      | [] => [[c]]

/-- Whether a token has several digits, the first of them zero, and nothing else. -/
def hasLeadingZero (token : List Char) : Bool :=
  1 < token.length && token.head? == some '0' && token.all Char.isDigit

/-- The step of a token at a position of the text. -/
def segmentOfToken (position : Nat) (token : List Char) : Except PathError Segment :=
  if token.isEmpty then .error (.emptySegment position)
  else if hasLeadingZero token then .error (.leadingZero position (String.ofList token))
  else .ok (Segment.ofToken token)

/-- The steps of tokens, the first of them at the given position. -/
def segmentsOfTokens : Nat → List (List Char) → Except PathError (List Segment)
  | _, [] => .ok []
  | position, token :: rest => do
    let segment ← segmentOfToken position token
    let segments ← segmentsOfTokens (position + 1) rest
    return segment :: segments

/-- The path of a text. -/
def parse (text : String) : Except PathError Path :=
  if text.isEmpty then .error .empty
  else do
    let segments ← segmentsOfTokens 0 (tokens text.toList)
    match ofSegments? segments with
    | some path => return path
    | none => throw .empty

/-- A text always has a token. -/
theorem tokens_ne_nil (text : List Char) : tokens text ≠ [] := by
  cases text with
  | nil => simp [tokens]
  | cons c rest =>
    by_cases h : c = '.'
    · simp [tokens, h]
    · simp only [tokens, h, ↓reduceIte]
      split <;> simp

end Path

end FlowTree
