import Recompile.Json.Basic
import Recompile.Text.Basic

/-!
# Writing JSON

`Json.compact` writes a value without any blank, `Json.pretty` with one item or field a
line and two blanks for each level. In text, quotes and backslashes and the control
characters are escaped, the latter by a letter where there is one; all else stands
for itself.
-/

set_option autoImplicit false

namespace Recompile.Json

/-- A character inside text. -/
def escapeChar (c : Char) : List Char :=
  if c = '"' then ['\\', '"']
  else if c = '\\' then ['\\', '\\']
  else if c.toNat = 8 then ['\\', 'b']
  else if c.toNat = 9 then ['\\', 't']
  else if c.toNat = 10 then ['\\', 'n']
  else if c.toNat = 12 then ['\\', 'f']
  else if c.toNat = 13 then ['\\', 'r']
  else if c.toNat < 0x20 then
    ['\\', 'u', '0', '0', hexDigit (c.toNat / 16), hexDigit (c.toNat % 16)]
  else [c]

/-- A text in quotes. Text that cannot be read is written as half a surrogate pair. -/
def quoteText : JsonText → List Char
  | some s => '"' :: s.toList.flatMap escapeChar ++ ['"']
  | none => ['"', '\\', 'u', 'd', '8', '0', '0', '"']

mutual

/-- A value without blanks. -/
def compact : Json → List Char
  | .null => ['n', 'u', 'l', 'l']
  | .bool true => ['t', 'r', 'u', 'e']
  | .bool false => ['f', 'a', 'l', 's', 'e']
  | .nat n => Text.decimalDigits n
  | .number spelling => spelling.toList
  | .text t => quoteText t
  | .array items => '[' :: compactItems items ++ [']']
  | .object fields => '\x7b' :: compactFields fields ++ ['\x7d']

/-- The items of an array, with commas between them. -/
def compactItems : List Json → List Char
  | [] => []
  | [item] => compact item
  | item :: items => compact item ++ ',' :: compactItems items

/-- The fields of an object, with commas between them. -/
def compactFields : List (JsonText × Json) → List Char
  | [] => []
  | [(key, value)] => quoteText key ++ ':' :: compact value
  | (key, value) :: fields => quoteText key ++ ':' :: compact value ++ ',' :: compactFields fields

end

/-- The end of a line and the blanks in front of the next one. -/
def newLine (depth : Nat) : List Char :=
  '\n' :: List.replicate (2 * depth) ' '

mutual

/-- A value at a depth of nesting, one item or field a line. -/
def prettyAt (depth : Nat) : Json → List Char
  | .null => ['n', 'u', 'l', 'l']
  | .bool true => ['t', 'r', 'u', 'e']
  | .bool false => ['f', 'a', 'l', 's', 'e']
  | .nat n => Text.decimalDigits n
  | .number spelling => spelling.toList
  | .text t => quoteText t
  | .array [] => ['[', ']']
  | .array items => '[' :: prettyItems (depth + 1) items ++ newLine depth ++ [']']
  | .object [] => ['\x7b', '\x7d']
  | .object fields => '\x7b' :: prettyFields (depth + 1) fields ++ newLine depth ++ ['\x7d']

/-- The items of an array, each on a line of its own. -/
def prettyItems (depth : Nat) : List Json → List Char
  | [] => []
  | [item] => newLine depth ++ prettyAt depth item
  | item :: items => newLine depth ++ prettyAt depth item ++ ',' :: prettyItems depth items

/-- The fields of an object, each on a line of its own. -/
def prettyFields (depth : Nat) : List (JsonText × Json) → List Char
  | [] => []
  | [(key, value)] => newLine depth ++ quoteText key ++ ':' :: ' ' :: prettyAt depth value
  | (key, value) :: fields =>
    newLine depth ++ quoteText key ++ ':' :: ' ' :: prettyAt depth value
      ++ ',' :: prettyFields depth fields

end

/-- A value on several lines. -/
def pretty (j : Json) : List Char :=
  prettyAt 0 j

end Recompile.Json
