import Clausify.Decimal.Layout
import Clausify.Text.Quoted
import Clausify.Value.Basic

/-!
# Text of values

Messages name the kind of a value and show the value itself.
-/

namespace Clausify.Value

/-- The name of a value's kind. -/
def kind : Value → String
  | null => "NoneType"
  | bool _ => "bool"
  | int _ => "int"
  | float _ => "float"
  | str _ => "str"
  | list _ => "list"
  | tuple _ => "tuple"
  | lit _ _ => "Literal"
  | foreign _ _ => "Duck"
  | outer _ => "Orig"
  | temp _ => "Temp"
  | snapshot _ _ _ _ => "StateSnapshot"
  | record _ => "dict"

/-- Floating point numbers stand positionally from 10⁻⁴ to below 10¹⁶. -/
def floatLayout : Decimal.Layout where
  plainFrom := -4
  plainBelow := 16
  exponentPlus := true
  exponentWidth := 2
  nan := "nan"
  infinity := "inf"

/-- The text of a truth value. -/
def boolText (b : Bool) : String :=
  if b then "True" else "False"

/-- Texts between brackets as a sequence of fixed length, where a single one has a comma behind it. -/
def tupleText : List String → String
  | [s] => "(" ++ s ++ ",)"
  | ss => "(" ++ ", ".intercalate ss ++ ")"

mutual

/-- The text of a value in messages. -/
def text : Value → String
  | null => "None"
  | bool b => boolText b
  | int n => toString n
  | float bits => floatLayout.render bits
  | str s => Text.quoted s
  | list items => "[" ++ ", ".intercalate (texts items) ++ "]"
  | tuple items => tupleText (texts items)
  | lit var positive => (if positive then "" else "-") ++ text var
  | foreign var positive => "Duck(var=" ++ text var ++ ", positive=" ++ boolText positive ++ ")"
  | outer var => "Orig(" ++ text var ++ ")"
  | temp index => "Temp(" ++ toString index ++ ")"
  | snapshot nextVar numClauses assumptions contexts =>
    "StateSnapshot(next_var=" ++ toString nextVar ++ ", num_clauses=" ++ toString numClauses
      ++ ", assumptions=" ++ tupleText (texts assumptions) ++ ", contexts=" ++ tupleText (contexts.map Text.quoted)
      ++ ")"
  | record fields => "\x7b" ++ ", ".intercalate (fieldTexts fields) ++ "\x7d"

/-- The texts of the items. -/
def texts : List Value → List String
  | [] => []
  | v :: vs => text v :: texts vs

/-- The texts of the fields. -/
def fieldTexts : List (String × Value) → List String
  | [] => []
  | (name, v) :: fs => (Text.quoted name ++ ": " ++ text v) :: fieldTexts fs

end

/-- The text of a value where it is shown on its own: text stands without quotes. -/
def display : Value → String
  | str s => s
  | v => v.text

end Clausify.Value
