import Clausify.Error

/-!
# Literals

A literal is a variable with a polarity. It comes as a nonzero integer, as a variable with an explicit polarity, or
as a literal of a client's own type; `Literal.var` and `Literal.positive` say what each denotes.
-/

namespace Clausify

/-- A literal in one of its representations. -/
inductive Literal where
  /-- The variable `|n|`, positive when `n` is. -/
  | numbered (n : Int) (ne_zero : n ≠ 0)
  | named (var : Value) (positive : Bool)
  | foreign (var : Value) (positive : Bool)
deriving DecidableEq

namespace Literal

/-- The variable of a literal. -/
def var : Literal → Value
  | numbered n _ => .int n.natAbs
  | named v _ => v
  | foreign v _ => v

/-- The polarity of a literal. -/
def positive : Literal → Bool
  | numbered n _ => 0 < n
  | named _ p => p
  | foreign _ p => p

/-- The literal of opposite polarity, in the same representation. -/
def negate : Literal → Literal
  | numbered n h => numbered (-n) (by omega)
  | named v p => named v !p
  | foreign v p => foreign v !p

@[simp] theorem var_negate (l : Literal) : l.negate.var = l.var := by
  cases l <;> simp [negate, var]

@[simp] theorem positive_negate (l : Literal) : l.negate.positive = !l.positive := by
  cases l with
  | numbered n h =>
    simp only [negate, positive]
    by_cases hn : 0 < n
    · simp [hn]; omega
    · simp [hn]; omega
  | named _ _ => rfl
  | foreign _ _ => rfl

/-- The value that a literal is. -/
def toValue : Literal → Value
  | numbered n _ => .int n
  | named v p => .lit v p
  | foreign v p => .foreign v p

/-- The literal that a value is. -/
def ofValue : Value → Except Error Literal
  | .int n => if h : n = 0 then .error .zeroLiteral else .ok (numbered n h)
  | .lit v p => .ok (named v p)
  | .foreign v p => .ok (foreign v p)
  | v => .error (.notLiteral v)

@[simp] theorem ofValue_toValue (l : Literal) : ofValue l.toValue = .ok l := by
  cases l <;> simp_all [toValue, ofValue]

/-- The literals that the values are; fails at the first value that is none. -/
def ofValues (vs : List Value) : Except Error (List Literal) :=
  vs.mapM ofValue

/-- The literal moved to another variable. A numbered literal stays a number where the variable is one. -/
def withVar (v : Value) : Literal → Value
  | numbered n _ => match v with
    | .int m => .int (if 0 < n then m else -m)
    | v => .lit v (0 < n)
  | named _ p => .lit v p
  | foreign _ p => .foreign v p

/-- The literal with `f` applied to its variable. -/
def mapVar (f : Value → Value) (l : Literal) : Value :=
  l.withVar (f l.var)

/-! ### Literals of a temporary scope -/

/-- The literal that a value is, with its variable and polarity spelled out. -/
def spelled : Value → Except Error Literal
  | .lit v p => .ok (named v p)
  | v => do
    let l ← ofValue v
    return named l.var l.positive

/-- The literal that a value is, seen from a temporary scope. It is moved to the outer variable in its own kind; where
that gives a literal of a client's own type, which need not have all operations, it is spelled out. -/
def embed (v : Value) : Except Error Literal := do
  spelled ((← ofValue v).mapVar .outer)

/-- An outer literal as a literal of a temporary scope. -/
def lift (l : Literal) : Literal :=
  named (.outer l.var) l.positive

/-- In whatever kind a literal comes, it is embedded as one of a variable and a polarity. -/
theorem embed_eq (v : Value) : embed v = (ofValue v).map lift := by
  unfold embed
  cases ofValue v with
  | error x => rfl
  | ok l => cases l <;> rfl

@[simp] theorem var_lift (l : Literal) : l.lift.var = .outer l.var := rfl

@[simp] theorem positive_lift (l : Literal) : l.lift.positive = l.positive := rfl

/-- The literal of a temporary. -/
def temp (index : Int) (positive : Bool) : Literal :=
  named (.temp index) positive

/-- The outer literal that a literal of a temporary scope stands for. -/
def lower (l : Literal) : Except Error Value :=
  match l.var with
  | .outer (.int n) => .ok (.int (if l.positive then n else -n))
  | .outer v => .ok (.lit v l.positive)
  | _ => .error (.notOuter l.toValue)

end Literal

end Clausify
