import Clausify.Decimal.Layout
import Clausify.Json.Basic
import Clausify.Text.Quoted

/-!
# Writing JSON

Values are written on one line, or with every item and member on a line of its own. Numbers that JSON does not have
are written as null.
-/

namespace Clausify.Json

/-- A character inside a string. -/
def escape (c : Char) : List Char :=
  match c with
  | '"' => ['\\', '"']
  | '\\' => ['\\', '\\']
  | '\x08' => ['\\', 'b']
  | '\x0c' => ['\\', 'f']
  | '\n' => ['\\', 'n']
  | '\r' => ['\\', 'r']
  | '\t' => ['\\', 't']
  | c => if c.toNat < 0x20 then '\\' :: 'u' :: Text.hex 4 c.toNat else [c]

/-- The text of a string. -/
def quote (s : String) : String :=
  String.ofList ('"' :: (s.toList.flatMap escape ++ ['"']))

/-- Floating point numbers stand positionally from 10⁻⁵ to below 10¹⁶. -/
def floatLayout : Decimal.Layout where
  plainFrom := -5
  plainBelow := 16
  exponentPlus := false
  exponentWidth := 1
  nan := "null"
  infinity := "null"

/-- The text of a floating point number. -/
def floatText (bits : UInt64) : String :=
  if (Decimal.dyadic? bits).isSome then floatLayout.render bits else "null"

/-- The text of a value that has no parts. -/
def leafText : Json → String
  | null => "null"
  | bool b => if b then "true" else "false"
  | int n => toString n
  | float bits => floatText bits
  | str s => quote s
  | arr _ => "[]"
  | obj _ => "\x7b\x7d"

mutual

/-- The text of a value on one line. -/
def compact : Json → String
  | arr items => "[" ++ ",".intercalate (compactItems items) ++ "]"
  | obj members => "\x7b" ++ ",".intercalate (compactMembers members) ++ "\x7d"
  | v => v.leafText

/-- The texts of items on one line. -/
def compactItems : List Json → List String
  | [] => []
  | v :: vs => compact v :: compactItems vs

/-- The texts of members on one line. -/
def compactMembers : List (String × Json) → List String
  | [] => []
  | (name, v) :: ms => (quote name ++ ":" ++ compact v) :: compactMembers ms

end

/-- Indented parts between brackets, one on each line. -/
def block (left right : String) (indent : Nat) (parts : List String) : String :=
  let margin (n : Nat) : String := "".pushn ' ' (2 * n)
  if parts.isEmpty then left ++ right
  else
    left ++ "\n" ++ ",\n".intercalate (parts.map (margin (indent + 1) ++ ·)) ++ "\n" ++ margin indent ++ right

mutual

/-- The text of a value that starts at an indentation. -/
def indented (indent : Nat) : Json → String
  | arr items => block "[" "]" indent (indentedItems (indent + 1) items)
  | obj members => block "\x7b" "\x7d" indent (indentedMembers (indent + 1) members)
  | v => v.leafText

/-- The texts of items at an indentation. -/
def indentedItems (indent : Nat) : List Json → List String
  | [] => []
  | v :: vs => indented indent v :: indentedItems indent vs

/-- The texts of members at an indentation. -/
def indentedMembers (indent : Nat) : List (String × Json) → List String
  | [] => []
  | (name, v) :: ms => (quote name ++ ": " ++ indented indent v) :: indentedMembers indent ms

end

/-- The text of a value over several lines. -/
def pretty (v : Json) : String :=
  v.indented 0

end Clausify.Json
