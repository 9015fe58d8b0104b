import FlowTree.Text.Printable

/-!
# FlowTree.Text.Quoted

Strings between quotes in messages for people.

Quotes, backslashes and the common control characters have short escapes; every
other character that would not show, or would merge with the one before it, is
given by its code in hexadecimal.

* `Quoted.text` — one string;
* `Quoted.list` — strings between brackets.
-/

namespace FlowTree

namespace Quoted

/-- A character between quotes. -/
def escaped (c : Char) : List Char :=
  if c = '"' then ['\\', '"']
  else if c = '\\' then ['\\', '\\']
  else if c = '\n' then ['\\', 'n']
  else if c = '\r' then ['\\', 'r']
  else if c = '\t' then ['\\', 't']
  else if c = '\x00' then ['\\', '0']
  else if isPrintable c then [c]
  else '\\' :: 'u' :: '\x7b' :: (Nat.toDigits 16 c.toNat ++ ['\x7d'])

/-- A string between quotes. -/
def text (s : String) : String := String.ofList ('"' :: s.toList.flatMap escaped ++ ['"'])

/-- Strings between quotes, in brackets. -/
def list (items : List String) : String := "[" ++ ", ".intercalate (items.map text) ++ "]"

end Quoted

end FlowTree
