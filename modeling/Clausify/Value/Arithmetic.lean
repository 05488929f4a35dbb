import Clausify.Decimal.Extended
import Clausify.Decimal.Reading
import Clausify.Error

/-!
# Arithmetic on values

Sums, negatives and magnitudes of values of the kinds that have them, and the order of numbers. Truth values count
as 0 and 1, and an integer beside a floating point number becomes one if it is not too large.
-/

namespace Clausify.Value

/-- The integer that an integer or a truth value counts as. -/
def asInt? : Value → Option Int
  | int n => some n
  | bool b => some (if b then 1 else 0)
  | _ => none

/-- Whether a value counts as a number. -/
def isNumber : Value → Bool
  | float _ => true
  | v => v.asInt?.isSome

/-- The floating point number that a number counts as. -/
def asFloat : Value → Except Error UInt64
  | float bits => .ok bits
  | v => match v.asInt? with
    | some n => if (Float.ofInt n).isInf then .error .numberTooLarge else .ok (Float.ofInt n).toBits
    | none => .error .unsuitableValue

/-- The floating point number that a number counts as, or that text is read as. -/
def toFloat : Value → Except Error Value
  | str s => match Decimal.read? s.toList with
    | some bits => .ok (float bits)
    | none => .error .unreadableNumber
  | v => v.asFloat.map float

/-- The sum of two numbers, or the concatenation of two texts or sequences of one kind. -/
def add : Value → Value → Except Error Value
  | str s, str t => .ok (str (s ++ t))
  | list as, list bs => .ok (list (as ++ bs))
  | tuple as, tuple bs => .ok (tuple (as ++ bs))
  | a, b =>
    match a.asInt?, b.asInt? with
    | some m, some n => .ok (int (m + n))
    | _, _ =>
      if a.isNumber && b.isNumber then return float (Decimal.add (← a.asFloat) (← b.asFloat))
      else .error .unsuitableValue

/-- The negative of a number, or the literal of opposite polarity. -/
def neg : Value → Except Error Value
  | lit var positive => .ok (lit var !positive)
  | float bits => .ok (float (bits ^^^ Decimal.signBit))
  | v => match v.asInt? with
    | some n => .ok (int (-n))
    | none => .error .unsuitableValue

/-- The absolute value of a number. -/
def magnitude : Value → Except Error Value
  | float bits => .ok (float (bits &&& ~~~Decimal.signBit))
  | v => match v.asInt? with
    | some n => .ok (int n.natAbs)
    | none => .error .unsuitableValue

/-- The point of a number on the line; a NaN and other values have none. -/
def extended? : Value → Option Decimal.Extended
  | float bits => Decimal.Extended.ofBits? bits
  | v => v.asInt?.map (.finite · 0)

/-- Whether two values are numbers of which the first is not above the second. -/
def le (a b : Value) : Bool :=
  match a.extended?, b.extended? with
  | some x, some y => x.le y
  | _, _ => false

/-- Compares two numbers. -/
def isAtMost (a b : Value) : Except Error Bool :=
  if a.isNumber && b.isNumber then .ok (a.le b) else .error .unsuitableValue

/-- How many natural numbers lie below a number; nothing if all do. -/
def countBelow (v : Value) : Except Error (Option Nat) :=
  if v.isNumber then
    match v.extended? with
    | some (.finite m q) => .ok (some (Decimal.Extended.ceiling m q).toNat)
    | some (.infinite false) => .ok none
    | some (.infinite true) | none => .ok (some 0)
  else .error .unsuitableValue

end Clausify.Value
