import Clausify.Value.Arithmetic
import Clausify.Value.Identity

/-!
# Indices

A formula is made of signed indices. They are integers, unless a client replaces the variable map by one of its own:
then whatever it maps variables to takes their place, and an operation that is not defined for it fails. `Index` says
what is asked of them. For integers nothing fails.
-/

namespace Clausify

/-- What can stand for signed indices. -/
class Index (I : Type) where
  ofInt : Int → I
  /-- The value that an index is. -/
  toValue : I → Value
  negate : I → Except Error I
  magnitude : I → Except Error I
  /-- Whether two indices are numbers of which the first is not above the second. -/
  le : I → I → Bool
  /-- Whether two indices are the same. -/
  same : I → I → Bool
  toValue_ofInt (n : Int) : toValue (ofInt n) = .int n
  same_eq (i j : I) : same i j = (toValue i).same (toValue j)

instance : Index Int where
  ofInt n := n
  toValue := .int
  negate i := .ok (-i)
  magnitude i := .ok i.natAbs
  le i j := i ≤ j
  same i j := i = j
  toValue_ofInt _ := rfl
  same_eq i j := (Value.same_int i j).symm

instance : Index Value where
  ofInt := .int
  toValue v := v
  negate := Value.neg
  magnitude := Value.magnitude
  le := Value.le
  same := Value.same
  toValue_ofInt _ := rfl
  same_eq _ _ := rfl

namespace Index

variable {I : Type} [Index I]

/-- Whether an index can be looked up. -/
def hashable (i : I) : Bool :=
  (toValue i).hashable

/-- Whether two indices are numbers of which the first is below the second. -/
def lt (i j : I) : Bool :=
  le i j && !le j i

/-- Whether a signed index is positive. -/
def positive (i : I) : Bool :=
  lt (ofInt 0) i

def isZero (i : I) : Bool :=
  same i (ofInt 0)

/-- Whether a signed index belongs to `n` or an index above it. -/
def reaches (n : Int) (i : I) : Except Error Bool :=
  return le (ofInt n) (← magnitude i)

/-- Whether an index lies between zero and `n`, both excluded. -/
def isBetween (n : Int) (i : I) : Except Error Bool := do
  let _ ← magnitude i
  return lt (ofInt 0) i && lt i (ofInt n)

/-! ### Integers -/

@[simp] theorem negate_int (i : Int) : negate i = .ok (-i) := rfl

@[simp] theorem magnitude_int (i : Int) : magnitude i = .ok (i.natAbs : Int) := rfl

@[simp] theorem same_int (i j : Int) : same i j = decide (i = j) := rfl

@[simp] theorem hashable_int (i : Int) : hashable i = true := rfl

@[simp] theorem isZero_int (i : Int) : isZero i = decide (i = 0) := rfl

@[simp] theorem lt_int (i j : Int) : lt i j = decide (i < j) := by
  change (decide (i ≤ j) && !decide (j ≤ i)) = decide (i < j)
  by_cases h : i < j
  · simp [h, Int.le_of_lt h]
  · simp [h, Int.not_lt.mp h]

@[simp] theorem positive_int (i : Int) : positive i = decide (0 < i) := by
  rw [positive, lt_int]
  rfl

@[simp] theorem reaches_int (n i : Int) : reaches n i = .ok (decide (n ≤ i.natAbs)) := rfl

@[simp] theorem isBetween_int (n i : Int) : isBetween n i = .ok (decide (0 < i ∧ i < n)) := by
  simp only [isBetween, lt_int, Bool.decide_and]
  rfl

end Index

end Clausify
