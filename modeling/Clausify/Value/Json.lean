import Clausify.Json.Basic
import Clausify.Value.Basic

/-!
# Values from JSON
-/

namespace Clausify.Value

mutual

/-- The value that a JSON value is. -/
def ofJson : Json → Value
  | .null => null
  | .bool b => bool b
  | .int n => int n
  | .float bits => float bits
  | .str s => str s
  | .arr items => list (ofJsonItems items)
  | .obj members => record (ofJsonMembers members)

/-- The values of the items of an array. -/
def ofJsonItems : List Json → List Value
  | [] => []
  | v :: vs => ofJson v :: ofJsonItems vs

/-- The fields that the members of an object are. -/
def ofJsonMembers : List (String × Json) → List (String × Value)
  | [] => []
  | (name, v) :: ms => (name, ofJson v) :: ofJsonMembers ms

end

end Clausify.Value
