import Clausify.Error

/-!
# Levels of the log

A level is given by its name in letters of any case, and any other setting means the default. Two settings name
something else than a level and are refused.
-/

namespace Clausify.LogLevel

/-- The level without a setting. -/
def default : Nat := 20

/-- The capital letters that a character stands for. Besides the letters of ASCII, a few others do. -/
def upper (c : Char) : List Char :=
  match c with
  | 'ı' => ['I']
  | 'ſ' => ['S']
  | 'ß' => ['S', 'S']
  | 'ﬀ' => ['F', 'F']
  | 'ﬁ' => ['F', 'I']
  | 'ﬂ' => ['F', 'L']
  | 'ﬃ' => ['F', 'F', 'I']
  | 'ﬄ' => ['F', 'F', 'L']
  | 'ﬅ' => ['S', 'T']
  | 'ﬆ' => ['S', 'T']
  | c => [c.toUpper]

/-- The level of a setting. -/
def ofSetting (setting : String) : Except Error Nat :=
  match String.ofList (setting.toList.flatMap upper) with
  | "CRITICAL" | "FATAL" => .ok 50
  | "ERROR" => .ok 40
  | "WARNING" | "WARN" => .ok 30
  | "INFO" => .ok 20
  | "DEBUG" => .ok 10
  | "NOTSET" => .ok 0
  | "BASIC_FORMAT" => .error .notLevel
  | "_STYLES" => .error .unsuitableValue
  | _ => .ok default

end Clausify.LogLevel
