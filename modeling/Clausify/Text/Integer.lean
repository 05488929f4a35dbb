import Clausify.Text.Digit

/-!
# Integers in text

An integer is an optional sign and digits with single underscores between them. How many digits may stand, and
which characters are digits, is up to the reader.

The limit on digits (`maxDigits`) is kept wherever an integer is read, by `integer?`, by the readers of JSON and of
record fields, and where a document is written in DIMACS (`Dimacs.number`). Elsewhere integers are written without
it: in values, errors, notices, canonical texts and JSON.
-/

namespace Clausify.Text

/-- The values of the digits of a numeral, underscores between digits left out. -/
def digits? (digit? : Char → Option Nat) : List Char → Option (List Nat)
  | [] => none
  | [c] => (digit? c).map ([·])
  | c :: '_' :: cs => do return (← digit? c) :: (← digits? digit? cs)
  | c :: cs => do return (← digit? c) :: (← digits? digit? cs)

/-- The number with these decimal digits, the most significant first. -/
def ofDigits (ds : List Nat) : Nat :=
  ds.foldl (fun n d => 10 * n + d) 0

/-- Splits off a sign; `true` stands for minus. -/
def splitSign : List Char → Bool × List Char
  | '-' :: cs => (true, cs)
  | '+' :: cs => (false, cs)
  | cs => (false, cs)

/-- No numeral longer than this is read. -/
def maxDigits : Nat := 4300

/-- An integer in digits of any script, of at most `maxDigits` digits with leading zeros counted. -/
def integer? (cs : List Char) : Option Int := do
  let (negative, body) := splitSign cs
  let ds ← digits? digitValue? body
  if ds.length ≤ maxDigits then some (if negative then -(ofDigits ds : Int) else ofDigits ds) else none

end Clausify.Text
