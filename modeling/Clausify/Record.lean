import Clausify.Decimal.Binary64
import Clausify.Fault
import Clausify.Text.Blank
import Clausify.Text.Integer
import Clausify.Value.Json

/-!
# Records

Records are read from JSON field by field, and all faults are collected in the order of the fields. Numbers and truth
values are read leniently: from each other where nothing is lost, and from text.
-/

namespace Clausify.Record

/-- What was read, or all that is wrong with it. -/
abbrev Reading (α : Type) := Except (List Fault) α

variable {α β ι : Type}

/-- One fault of the whole. -/
def fault (c : Fault.Cause) : Reading α :=
  .error [.here c]

/-- What was read from a part. -/
def under (step : Fault.Step) (r : Reading α) : Reading α :=
  r.mapError fun fs => fs.map (.under step)

/-- Two readings, with the faults of both. -/
def both (r : Reading α) (s : Reading β) : Reading (α × β) :=
  match r, s with
  | .ok a, .ok b => .ok (a, b)
  | .error fs, .error gs => .error (fs ++ gs)
  | .error fs, .ok _ => .error fs
  | .ok _, .error gs => .error gs

/-- A value that was read, unless it breaks a rule. -/
def checked (rule? : α → Option Rule) (r : Reading α) : Reading α := do
  let a ← r
  match rule? a with
  | some x => fault (.rule x)
  | none => return a

/-! ### Parts -/

/-- Reads items that are numbered from `i` on. -/
def items (read : ι → Reading α) (i : Nat) : List ι → Reading (List α)
  | [] => .ok []
  | v :: vs => (both (under (.item i) (read v)) (items read (i + 1) vs)).map fun p => p.1 :: p.2

/-- Reads a list. -/
def list (read : Json → Reading α) : Json → Reading (List α)
  | .arr vs => items read 0 vs
  | _ => fault .notList

/-- The members of an object. -/
def members (otherwise : Fault.Cause) : Json → Reading (List (String × Json))
  | .obj ms => .ok ms
  | _ => fault otherwise

/-- Reads a field that has to be there. -/
def required (name : String) (read : Json → Reading α) (ms : List (String × Json)) : Reading α :=
  under (.field name) (match Json.member? name ms with
    | some v => read v
    | none => fault .missing)

/-- Reads a field that may be left out. -/
def optional (name : String) (default : α) (read : Json → Reading α) (ms : List (String × Json)) : Reading α :=
  match Json.member? name ms with
  | some v => under (.field name) (read v)
  | none => .ok default

/-- Reads a value that may be null. -/
def nullable (read : Json → Reading α) : Json → Reading (Option α)
  | .null => .ok none
  | v => (read v).map some

/-! ### Values -/

/-- Leaves out a point with nothing but zeros behind it. -/
def dropZeroFraction (cs : List Char) : List Char :=
  match cs.span (· ≠ '.') with
  | (whole, '.' :: zeros) => if zeros.all (· = '0') then whole else cs
  | _ => cs

/-- Reads an integer from text. -/
def intOfText (s : String) : Reading Int :=
  let cs := Text.trimBy Text.isWhiteSpace s.toList
  if Text.maxDigits < cs.length then fault .oversizedInt
  else
    let (negative, body) := Text.splitSign (dropZeroFraction cs)
    match Text.digits? Text.asciiDigit? body with
    | some ds => .ok (if negative then -(Text.ofDigits ds : Int) else Text.ofDigits ds)
    | none => fault .unreadableInt

/-- Reads an integer of 64 bits from a floating point number. The bound above is itself no such integer and is read
as the largest one. -/
def intOfFloat (bits : UInt64) : Reading Int :=
  match Decimal.dyadic? bits, Decimal.integral? bits with
  | none, _ => fault .notFinite
  | some _, none => fault .fractional
  | some _, some n => 
    if -0x8000000000000000 ≤ n ∧ n ≤ 0x8000000000000000 then .ok (min n 0x7FFFFFFFFFFFFFFF)
    else fault .oversizedInt

/-- Reads an integer from a value. -/
def intOfValue : Value → Reading Int
  | .int n => .ok n
  | .bool b => .ok (if b then 1 else 0)
  | .float bits => intOfFloat bits
  | .str s => intOfText s
  | _ => fault .notInt

/-- Reads an integer. -/
def int (v : Json) : Reading Int :=
  intOfValue (.ofJson v)

/-- An integer that was read, unless it is below a bound. -/
def notBelow (bound : Int) (r : Reading Int) : Reading Int := do
  let n ← r
  if bound ≤ n then return n else fault .belowBound

/-- Reads an integer that is not below a bound. -/
def intFrom (bound : Int) (v : Json) : Reading Int :=
  notBelow bound (int v)

/-- Reads a truth value from text. -/
def boolOfText (s : String) : Reading Bool :=
  let word := s.map Char.toLower
  if ["1", "true", "t", "yes", "y", "on"].contains word then .ok true
  else if ["0", "false", "f", "no", "n", "off"].contains word then .ok false
  else fault .unreadableBool

/-- Reads a truth value. -/
def bool : Json → Reading Bool
  | .bool b => .ok b
  | .int n => if n = 0 then .ok false else if n = 1 then .ok true else fault .unreadableBool
  | .float bits => match Decimal.integral? bits with
    | some 0 => .ok false
    | some 1 => .ok true
    | _ => fault .notBool
  | .str s => boolOfText s
  | _ => fault .notBool

/-- Reads text. -/
def string : Json → Reading String
  | .str s => .ok s
  | _ => fault .notString

end Clausify.Record
