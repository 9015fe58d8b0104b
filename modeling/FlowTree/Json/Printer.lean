import FlowTree.Json.Numeral

/-!
# FlowTree.Json.Printer

Writing JSON values as texts.

* `Json.compact` — no blanks;
* `Json.pretty` — a line for every item and field, two blanks of indentation for
  every level, empty containers closed at once.
-/

namespace FlowTree

namespace Json

/-! ## Strings -/

/-- A hexadecimal digit in lower case. -/
def hexDigit (n : Nat) : Char := Char.ofNat (if n < 10 then '0'.toNat + n else 'a'.toNat + (n - 10))

/-- A character inside a string: quotes, backslashes and characters below the
blank are escaped, all others stand for themselves. -/
def escaped (c : Char) : List Char :=
  if c = '"' then ['\\', '"']
  else if c = '\\' then ['\\', '\\']
  else if c = '\x08' then ['\\', 'b']
  else if c = '\x0c' then ['\\', 'f']
  else if c = '\n' then ['\\', 'n']
  else if c = '\r' then ['\\', 'r']
  else if c = '\t' then ['\\', 't']
  else if c < ' ' then ['\\', 'u', '0', '0', hexDigit (c.toNat / 16), hexDigit (c.toNat % 16)]
  else [c]

/-- A string between quotes. -/
def quoted (text : String) : String :=
  String.ofList ('"' :: text.toList.flatMap escaped ++ ['"'])

/-! ## Compact texts -/

mutual

/-- The text of a value without blanks. -/
def compact : Json → String
  | .null => "null"
  | .bool true => "true"
  | .bool false => "false"
  | .num value => value.render
  | .str text => quoted text
  | .arr items => "[" ++ ",".intercalate (compactItems items) ++ "]"
  | .obj fields => "\x7b" ++ ",".intercalate (compactFields fields) ++ "\x7d"

/-- The texts of items. -/
def compactItems : List Json → List String
  | [] => []
  | item :: rest => compact item :: compactItems rest

/-- The texts of fields. -/
def compactFields : List (String × Json) → List String
  | [] => []
  | (key, item) :: rest => (quoted key ++ ":" ++ compact item) :: compactFields rest

end

/-! ## Pretty texts -/

/-- The entries of a container, one on a line, behind a margin. -/
def block (opening closing margin : String) : List String → String
  | [] => opening ++ closing
  | entries => opening ++ "\n" ++
      ",\n".intercalate (entries.map fun entry => margin ++ "  " ++ entry) ++
      "\n" ++ margin ++ closing

mutual

/-- The text of a value whose lines after the first stand behind a margin. -/
def prettyBehind (margin : String) : Json → String
  | .arr items => block "[" "]" margin (prettyItems (margin ++ "  ") items)
  | .obj fields => block "\x7b" "\x7d" margin (prettyFields (margin ++ "  ") fields)
  | .null => "null"
  | .bool true => "true"
  | .bool false => "false"
  | .num value => value.render
  | .str text => quoted text

/-- The texts of items behind a margin. -/
def prettyItems (margin : String) : List Json → List String
  | [] => []
  | item :: rest => prettyBehind margin item :: prettyItems margin rest

/-- The texts of fields behind a margin. -/
def prettyFields (margin : String) : List (String × Json) → List String
  | [] => []
  | (key, item) :: rest =>
    (quoted key ++ ": " ++ prettyBehind margin item) :: prettyFields margin rest

end

/-- The text of a value, laid out over lines. -/
def pretty (value : Json) : String := prettyBehind "" value

end Json

end FlowTree
