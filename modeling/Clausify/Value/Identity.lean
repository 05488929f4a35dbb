import Clausify.Decimal.Binary64
import Clausify.Value.Basic

/-!
# Identity of values

Two values name the same variable when they have the same canonical form: a truth value counts as 0 or 1, and a
floating point number that is integral as that integer, at any depth. So sameness is an equivalence. A NaN is the
same only as one with the same bits.
-/

namespace Clausify.Value

mutual

/-- The canonical form of a value. -/
def canon : Value → Value
  | bool b => int (if b then 1 else 0)
  | float bits => match Decimal.integral? bits with
    | some n => int n
    | none => float bits
  | list items => list (canonAll items)
  | tuple items => tuple (canonAll items)
  | lit var positive => lit (canon var) positive
  | foreign var positive => foreign (canon var) positive
  | outer var => outer (canon var)
  | snapshot nextVar numClauses assumptions contexts =>
    snapshot nextVar numClauses (canonAll assumptions) contexts
  | record fields => record (canonFields fields)
  | v => v

/-- The canonical forms of the items. -/
def canonAll : List Value → List Value
  | [] => []
  | v :: vs => canon v :: canonAll vs

/-- The canonical forms of the fields. -/
def canonFields : List (String × Value) → List (String × Value)
  | [] => []
  | (name, v) :: fs => (name, canon v) :: canonFields fs

end

/-- Whether two values are the same variable. -/
def same (a b : Value) : Bool :=
  a.canon = b.canon

@[simp] theorem same_iff {a b : Value} : a.same b = true ↔ a.canon = b.canon := by
  simp [same]

theorem same_refl (a : Value) : a.same a = true := by simp

theorem same_symm {a b : Value} (h : a.same b = true) : b.same a = true := by
  simp_all

theorem same_trans {a b c : Value} (h₁ : a.same b = true) (h₂ : b.same c = true) : a.same c = true := by
  simp_all

theorem same_int (m n : Int) : (int m).same (int n) = decide (m = n) := by
  simp [same, canon]

mutual

/-- The first list or record that a value is or holds. -/
def unhashable? : Value → Option Value
  | list items => some (list items)
  | tuple items => unhashableIn? items
  | lit var _ => unhashable? var
  | foreign var _ => unhashable? var
  | outer var => unhashable? var
  | snapshot _ _ assumptions _ => unhashableIn? assumptions
  | record fields => some (record fields)
  | _ => none

/-- The first list or record that an item is or holds. -/
def unhashableIn? : List Value → Option Value
  | [] => none
  | v :: vs => (unhashable? v).or (unhashableIn? vs)

end

/-- Whether a value can serve as a variable: a list and a record cannot, nor can a value that holds one. -/
def hashable (v : Value) : Bool :=
  v.unhashable?.isNone

/-- Whether a value counts as true: null, zero, and empty text, sequences and records do not. -/
def truthy : Value → Bool
  | null => false
  | bool b => b
  | int n => n ≠ 0
  | float bits => Decimal.integral? bits ≠ some 0
  | str s => !s.isEmpty
  | list items => !items.isEmpty
  | tuple items => !items.isEmpty
  | record fields => !fields.isEmpty
  | _ => true

end Clausify.Value
