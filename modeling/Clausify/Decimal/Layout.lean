import Clausify.Decimal.Shortest

/-!
# Layout of decimals

A layout says which decimals are written positionally and how an exponent is written. A positional number always
shows a digit after its point; a number with an exponent shows a point only between digits.
-/

namespace Clausify.Decimal

/-- How a number is written from the digits chosen for it. -/
structure Layout where
  /-- The least exponent of the leading digit that is written positionally. -/
  plainFrom : Int
  /-- The least exponent above those that are written positionally. -/
  plainBelow : Int
  /-- Whether a positive exponent shows its sign. -/
  exponentPlus : Bool
  /-- The least number of digits of an exponent. -/
  exponentWidth : Nat
  nan : String
  infinity : String

/-- The decimal digits of `n`, with zeros in front up to a width. -/
def padded (width n : Nat) : List Char :=
  let ds := Nat.toDigits 10 n
  List.replicate (width - ds.length) '0' ++ ds

/-- Writes the magnitude `d · 10^e`. -/
def Layout.write (l : Layout) (d : Nat) (e : Int) : List Char :=
  let ds := Nat.toDigits 10 d
  let lead := ds.length - 1 + e
  if l.plainFrom ≤ lead ∧ lead < l.plainBelow then
    if 0 ≤ e then ds ++ List.replicate e.toNat '0' ++ ['.', '0']
    else if 0 ≤ lead then ds.take (lead.toNat + 1) ++ '.' :: ds.drop (lead.toNat + 1)
    else '0' :: '.' :: (List.replicate (-lead - 1).toNat '0' ++ ds)
  else
    let mantissa := match ds with
      | [] => []
      | [c] => [c]
      | c :: cs => c :: '.' :: cs
    let sign := if lead < 0 then ['-'] else if l.exponentPlus then ['+'] else []
    mantissa ++ 'e' :: (sign ++ padded l.exponentWidth lead.natAbs)

/-- Writes a floating point number by its shortest decimal. -/
def Layout.render (l : Layout) (bits : UInt64) : String :=
  if isNaN bits then l.nan
  else
    let magnitude := match dyadic? bits with
      | none => l.infinity
      | some x => let (d, e) := x.shortest; String.ofList (l.write d e)
    if isNegative bits then "-" ++ magnitude else magnitude

end Clausify.Decimal
