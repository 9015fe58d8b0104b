import FlowTree.Json.Text

/-!
# FlowTree.Json.Reader

Reading JSON texts.

The grammar is strict: no comments, no trailing commas, no leading zeros, no bare
control characters in strings.  Each reader takes characters from the front and
returns what it has read with what is left; `none` is a fault.

* `JsonText.ofString?` — the text as written, blanks around it allowed;
* `Json.ofString?` — the value, with at most `Json.deepest` nested containers.
-/

namespace FlowTree

namespace JsonText

/-! ## Blanks and digits -/

/-- The four blank characters. -/
def isBlank (c : Char) : Bool := c = ' ' || c = '\n' || c = '\t' || c = '\r'

/-- Passes over blanks. -/
def skipBlank : List Char → List Char
  | [] => []
  | c :: rest => if isBlank c then skipBlank rest else c :: rest

/-- The value of a decimal digit. -/
def digit? (c : Char) : Option Nat :=
  if '0' ≤ c ∧ c ≤ '9' then some (c.toNat - '0'.toNat) else none

/-- The digits at the front. -/
def takeDigits : List Char → List Nat × List Char
  | [] => ([], [])
  | c :: rest =>
    match digit? c with
    | some d => let (ds, rest) := takeDigits rest; (d :: ds, rest)
    | none => ([], c :: rest)

/-- The value of a hexadecimal digit of either case. -/
def hexDigit? (c : Char) : Option Nat :=
  if '0' ≤ c ∧ c ≤ '9' then some (c.toNat - '0'.toNat)
  else if 'a' ≤ c ∧ c ≤ 'f' then some (c.toNat - 'a'.toNat + 10)
  else if 'A' ≤ c ∧ c ≤ 'F' then some (c.toNat - 'A'.toNat + 10)
  else none

/-! ## Numbers -/

/-- A number: no leading zero, and a digit behind a point and in an exponent. -/
def takeNumeral (text : List Char) : Option (Numeral × List Char) := do
  let (negative, text) := match text with
    | '-' :: rest => (true, rest)
    | text => (false, text)
  let (whole, text) := takeDigits text
  match whole with
  | [] => none
  | 0 :: _ :: _ => none
  | _ =>
    let (fraction, text) ← match text with
      | '.' :: rest => match takeDigits rest with
        | ([], _) => none
        | (ds, rest) => some (ds, rest)
      | text => some ([], text)
    let (exponent, text) ← match text with
      | c :: rest =>
        if c = 'e' ∨ c = 'E' then
          let (below, rest) := match rest with
            | '+' :: rest => (false, rest)
            | '-' :: rest => (true, rest)
            | rest => (false, rest)
          match takeDigits rest with
          | ([], _) => none
          | (ds, rest) =>
            let e : Int := Numeral.ofDigits ds
            some (some (if below then -e else e), rest)
        else some (none, c :: rest)
      | [] => some (none, [])
    some (⟨negative, whole, fraction, exponent⟩, text)

/-! ## Strings -/

/-- A piece of a string: a character, or a unit of sixteen bits from an escape. -/
inductive Piece where
  | char (c : Char)
  | unit (n : Nat)

/-- The character of an escape of one letter. -/
def escape? : Char → Option Char
  | '"' => some '"'
  | '\\' => some '\\'
  | '/' => some '/'
  | 'b' => some '\x08'
  | 'f' => some '\x0c'
  | 'n' => some '\n'
  | 'r' => some '\r'
  | 't' => some '\t'
  | _ => none

/-- The pieces of a string up to its closing quote. -/
def takePieces : List Char → Option (List Piece × List Char)
  | [] => none
  | '"' :: rest => some ([], rest)
  | '\\' :: 'u' :: a :: b :: c :: d :: rest => do
    let high := 16 * (← hexDigit? a) + (← hexDigit? b)
    let low := 16 * (← hexDigit? c) + (← hexDigit? d)
    let (pieces, rest) ← takePieces rest
    return (.unit (256 * high + low) :: pieces, rest)
  | '\\' :: c :: rest => do
    let e ← escape? c
    let (pieces, rest) ← takePieces rest
    return (.char e :: pieces, rest)
  | c :: rest =>
    if c = '\\' ∨ c < ' ' then none
    else do
      let (pieces, rest) ← takePieces rest
      return (.char c :: pieces, rest)

/-- Whether a unit is the first half of a surrogate pair. -/
def isHighSurrogate (n : Nat) : Bool := 0xD800 ≤ n && n ≤ 0xDBFF

/-- Whether a unit is the second half of a surrogate pair. -/
def isLowSurrogate (n : Nat) : Bool := 0xDC00 ≤ n && n ≤ 0xDFFF

/-- The characters of pieces; `none` when half of a surrogate pair stands alone. -/
def joinPieces : List Piece → Option (List Char)
  | [] => some []
  | .char c :: rest => (joinPieces rest).map (c :: ·)
  | .unit high :: .unit low :: rest =>
    if isHighSurrogate high then
      if isLowSurrogate low then
        (joinPieces rest).map
          (Char.ofNat (0x10000 + 1024 * (high - 0xD800) + (low - 0xDC00)) :: ·)
      else none
    else if isLowSurrogate high then none
    else (joinPieces (.unit low :: rest)).map (Char.ofNat high :: ·)
  | .unit n :: rest =>
    if isHighSurrogate n || isLowSurrogate n then none
    else (joinPieces rest).map (Char.ofNat n :: ·)

/-- A string behind its opening quote. -/
def takeString (text : List Char) : Option (Option String × List Char) := do
  let (pieces, rest) ← takePieces text
  return ((joinPieces pieces).map String.ofList, rest)

/-! ## Texts -/

mutual

/-- A text, its leading blanks skipped.  Two steps of the bound are spent on a
character at most, so that twice the length is enough. -/
def take : Nat → List Char → Option (JsonText × List Char)
  | 0, _ => none
  | bound + 1, text =>
    match skipBlank text with
    | '\x7b' :: rest =>
      match skipBlank rest with
      | '\x7d' :: rest => some (.obj [], rest)
      | rest => (takeFields bound rest).map fun (fields, rest) => (.obj fields, rest)
    | '[' :: rest =>
      match skipBlank rest with
      | ']' :: rest => some (.arr [], rest)
      | rest => (takeItems bound rest).map fun (items, rest) => (.arr items, rest)
    | '"' :: rest => (takeString rest).map fun (text, rest) => (.str text, rest)
    | 'n' :: 'u' :: 'l' :: 'l' :: rest => some (.null, rest)
    | 't' :: 'r' :: 'u' :: 'e' :: rest => some (.bool true, rest)
    | 'f' :: 'a' :: 'l' :: 's' :: 'e' :: rest => some (.bool false, rest)
    | text => (takeNumeral text).map fun (numeral, rest) => (.num numeral, rest)

/-- The items of an array up to its closing bracket. -/
def takeItems : Nat → List Char → Option (List JsonText × List Char)
  | 0, _ => none
  | bound + 1, text => do
    let (item, text) ← take bound text
    match skipBlank text with
    | ']' :: rest => return ([item], rest)
    | ',' :: rest =>
      let (items, rest) ← takeItems bound rest
      return (item :: items, rest)
    | _ => none

/-- The fields of an object up to its closing brace. -/
def takeFields : Nat → List Char → Option (List (Option String × JsonText) × List Char)
  | 0, _ => none
  | bound + 1, text => do
    match skipBlank text with
    | '"' :: rest =>
      let (key, rest) ← takeString rest
      match skipBlank rest with
      | ':' :: rest =>
        let (item, rest) ← take bound rest
        match skipBlank rest with
        | '\x7d' :: rest => return ([(key, item)], rest)
        | ',' :: rest =>
          let (fields, rest) ← takeFields bound rest
          return ((key, item) :: fields, rest)
        | _ => none
      | _ => none
    | _ => none

end

/-- A whole text: nothing but blanks follows it. -/
def ofString? (text : String) : Option JsonText :=
  let chars := text.toList
  match take (2 * chars.length + 2) chars with
  | some (tree, rest) => if (skipBlank rest).isEmpty then some tree else none
  | none => none

end JsonText

namespace Json

/-- The deepest nesting of containers that a document may have as a text. -/
def deepest : Nat := 127

/-- The value of a text whose containers are not nested too deep. -/
def ofString? (text : String) : Option Json := do
  let tree ← JsonText.ofString? text
  if tree.depth ≤ deepest then tree.value? else none

end Json

end FlowTree
