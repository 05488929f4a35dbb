import Clausify.Value.Arithmetic

/-!
# Bounds

The bound of a cardinality constraint is an integer. A floating point number counts as the integer with the same
effect where the constraint then needs no counter; elsewhere it would take a counter whose number of temporaries is
no integer, and fails.
-/

namespace Clausify.Bound

/-- The error that a counter of `n` literals up to `k` asks for a number of temporaries that is no integer. -/
def noCounter (n : Nat) (k : Float) : Error :=
  .scopeSize (.float (Float.ofInt (n - 1) * k).toBits)

/-- The integer that has the same effect as `k` as a bound above for `n` literals. -/
def aboveFloat (n : Nat) (k : Float) : Except Error Int :=
  if k < 0 then .ok (-1)
  else if Float.ofNat n < k then .ok (n + 1)
  else if k == Float.ofNat n then .ok n
  else if k == 0 then .ok 0
  else .error (noCounter n k)

/-- The integer that a value is as a bound above for `n` literals. -/
def above (n : Nat) : Value → Except Error Int
  | .float bits => aboveFloat n (.ofBits bits)
  | k => match k.asInt? with
    | some k => .ok k
    | none => .error .unsuitableValue

/-- The integer that a value is as a bound below for `n` literals: as many fewer of their negations are allowed. -/
def below (n : Nat) : Value → Except Error Int
  | .float bits =>
    let k := Float.ofBits bits
    if k ≤ 0 then .ok 0
    else if Float.ofNat n < k then .ok (n + 1)
    else return n - (← aboveFloat n (Float.ofNat n - k))
  | k => match k.asInt? with
    | some k => .ok k
    | none => .error .unsuitableValue

end Clausify.Bound
