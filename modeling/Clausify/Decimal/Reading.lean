import Clausify.Decimal.Binary64
import Clausify.Text.Blank
import Clausify.Text.Integer

/-!
# Reading decimals

A decimal in text has an optional sign, digits of any script with or without a point among them, and an optional
exponent; single underscores may stand between digits. The words `inf`, `infinity` and `nan` are read in any case.
White space around all of it does not count.
-/

namespace Clausify.Decimal

/-- Leaves out the underscores that stand between digits; nothing if one stands elsewhere. -/
def dropUnderscores? (afterDigit : Bool) : List Char → Option (List Char)
  | [] => some []
  | '_' :: c :: cs =>
    if afterDigit && (Text.digitValue? c).isSome then (dropUnderscores? true cs).map (c :: ·) else none
  | c :: cs =>
    if c = '_' then none else (dropUnderscores? (Text.digitValue? c).isSome cs).map (c :: ·)

/-- Splits off the values of the leading digits. -/
def spanDigits : List Char → List Nat × List Char
  | [] => ([], [])
  | c :: cs => match Text.digitValue? c with
    | some d => let (ds, rest) := spanDigits cs; (d :: ds, rest)
    | none => ([], c :: cs)

/-- Reads the exponent that is the rest of a decimal; without one it is zero. -/
def exponent? : List Char → Option Int
  | [] => some 0
  | e :: cs =>
    if e = 'e' ∨ e = 'E' then
      let (negative, body) := Text.splitSign cs
      match spanDigits body with
      | (d :: ds, []) => some (if negative then -(Text.ofDigits (d :: ds) : Int) else Text.ofDigits (d :: ds))
      | _ => none
    else none

/-- Reads a decimal behind its sign. -/
def unsigned? (negative : Bool) (cs : List Char) : Option UInt64 := do
  let (whole, rest) := spanDigits cs
  let (fraction, rest) := match rest with
    | '.' :: rest => spanDigits rest
    | rest => ([], rest)
  if whole.isEmpty && fraction.isEmpty then none
  let e ← exponent? rest
  return ofDecimal negative (Text.ofDigits (whole ++ fraction)) (e - fraction.length)

/-- Reads a floating point number. -/
def read? (text : List Char) : Option UInt64 := do
  let cs ← dropUnderscores? false (Text.trimBy Text.isWhiteSpace text)
  let (negative, body) := Text.splitSign cs
  let word := String.ofList (body.map Char.toLower)
  if word = "inf" ∨ word = "infinity" then return signed negative infinityBits
  else if word = "nan" then return signed negative nanBits
  else unsigned? negative body

end Clausify.Decimal
