import Clausify.Decimal.Binary64

/-!
# Shortest decimals

The decimal of a number has the fewest digits among the decimals that round to it, and among those it is the
nearest, an exact tie going to the even one.
-/

namespace Clausify.Decimal

/-- Compares `d · 10^e` with `m · 2^q` exactly. -/
def compareScaled (d : Nat) (e : Int) (m : Nat) (q : Int) : Ordering :=
  compare (d * Nat.pow 10 e.toNat * Nat.pow 2 (-q).toNat) (m * Nat.pow 2 q.toNat * Nat.pow 10 (-e).toNat)

/-- Whether `d · 10^e` is among the decimals that round to the magnitude. -/
def Dyadic.readsBack (x : Dyadic) (d : Nat) (e : Int) : Bool :=
  let low := compareScaled d e (if x.narrowBelow then 4 * x.m - 1 else 4 * x.m - 2) (x.q - 2)
  let high := compareScaled d e (4 * x.m + 2) (x.q - 2)
  let closed := x.m % 2 = 0
  (low = .gt || (closed && low = .eq)) && (high = .lt || (closed && high = .eq))

/-- The least `k` with `m · 2^q < 10^k`, for positive `m`. -/
def Dyadic.scale (x : Dyadic) : Int :=
  let guess := Int.fdiv ((x.m.log2 + x.q) * 1233) 4096
  let above (k : Int) : Bool := compareScaled 1 k x.m x.q = .gt
  if above (guess - 1) then guess - 1
  else if above guess then guess
  else if above (guess + 1) then guess + 1
  else guess + 2

/-- The nearer of the multiples of `10^g` on both sides of the magnitude that read back. -/
def Dyadic.onGrid? (x : Dyadic) (g : Int) : Option Nat :=
  let below := (x.m * Nat.pow 2 x.q.toNat * Nat.pow 10 (-g).toNat) / (Nat.pow 2 (-x.q).toNat * Nat.pow 10 g.toNat)
  match x.readsBack below g, x.readsBack (below + 1) g with
  | false, false => none
  | true, false => some below
  | false, true => some (below + 1)
  | true, true =>
    match compareScaled (2 * below + 1) g (2 * x.m) x.q with
    | .gt => some below
    | .lt => some (below + 1)
    | .eq => some (if below % 2 = 0 then below else below + 1)

/-- Moves trailing zeros of the digits into the exponent. -/
def stripZeros (fuel : Nat) (d : Nat) (e : Int) : Nat × Int :=
  match fuel with
  | 0 => (d, e)
  | fuel + 1 => if d % 10 = 0 ∧ d ≠ 0 then stripZeros fuel (d / 10) (e + 1) else (d, e)

/-- Digits and exponent of the shortest decimal of a magnitude. Seventeen digits always suffice. -/
def Dyadic.shortest (x : Dyadic) : Nat × Int :=
  if x.m = 0 then (0, 0)
  else
    let k := x.scale
    let hit := (List.range 17).findSome? fun (n : Nat) =>
      let g := k - (n + 1)
      (x.onGrid? g).map (·, g)
    match hit with
    | some (d, e) => stripZeros 20 d e
    | none => (0, 0)

end Clausify.Decimal
