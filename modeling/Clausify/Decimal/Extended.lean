import Clausify.Decimal.Binary64

/-!
# The extended line

Integers and floating point numbers are compared exactly, as points of one line with an infinity at either end.
-/

namespace Clausify.Decimal

/-- A point of the line. -/
inductive Extended where
  /-- The number `m · 2^q`. -/
  | finite (m q : Int)
  | infinite (negative : Bool)

namespace Extended

/-- Whether a point is not above another. -/
def le : Extended → Extended → Bool
  | infinite true, _ => true
  | _, infinite false => true
  | finite m q, finite n r =>
    let low := min q r
    m * Nat.pow 2 (q - low).toNat ≤ n * Nat.pow 2 (r - low).toNat
  | _, _ => false

/-- The least integer that is not below a finite point. -/
def ceiling (m q : Int) : Int :=
  if 0 ≤ q then m * Nat.pow 2 q.toNat else -((-m) / Nat.pow 2 (-q).toNat)

/-- The point of a floating point number; a NaN has none. -/
def ofBits? (bits : UInt64) : Option Extended :=
  if isNaN bits then none
  else match dyadic? bits with
    | some d => some (finite (if d.negative then -(d.m : Int) else d.m) d.q)
    | none => some (infinite (isNegative bits))

end Extended

end Clausify.Decimal
