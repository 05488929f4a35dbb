/-!
# Boolean expressions

Expressions over named variables, with conjunctions and disjunctions of any number of terms. `Expr.normalize` pushes
negations down to the literals and merges nested conjunctions and disjunctions.
-/

namespace Clausify

/-- A Boolean expression over named variables. -/
inductive Expr where
  | lit (name : String) (negated : Bool)
  | not (e : Expr)
  | and (es : List Expr)
  | or (es : List Expr)
  | imp (a b : Expr)
  | iff (a b : Expr)
  | xor (a b : Expr)
deriving Inhabited

namespace Expr

/-! ### Meaning -/

mutual

/-- The value of an expression. -/
def eval (value : String → Bool) : Expr → Bool
  | lit name negated => value name != negated
  | not e => !eval value e
  | and es => evalAll value es
  | or es => evalAny value es
  | imp a b => !eval value a || eval value b
  | iff a b => eval value a == eval value b
  | xor a b => eval value a != eval value b

/-- Whether all expressions hold. -/
def evalAll (value : String → Bool) : List Expr → Bool
  | [] => true
  | e :: es => eval value e && evalAll value es

/-- Whether some expression holds. -/
def evalAny (value : String → Bool) : List Expr → Bool
  | [] => false
  | e :: es => eval value e || evalAny value es

end

mutual

/-- The value of an expression where not all variables have one. Parts that do not matter any more, read from the
left, are left out. -/
def eval? (value : String → Option Bool) : Expr → Option Bool
  | lit name negated => (value name).map (· != negated)
  | not e => (eval? value e).map (!·)
  | and es => evalAll? value es
  | or es => evalAny? value es
  | imp a b => do if ← eval? value a then eval? value b else return true
  | iff a b => return (← eval? value a) == (← eval? value b)
  | xor a b => return (← eval? value a) != (← eval? value b)

/-- Whether all expressions hold, up to the first that does not. -/
def evalAll? (value : String → Option Bool) : List Expr → Option Bool
  | [] => some true
  | e :: es => do if ← eval? value e then evalAll? value es else return false

/-- Whether some expression holds, up to the first that does. -/
def evalAny? (value : String → Option Bool) : List Expr → Option Bool
  | [] => some false
  | e :: es => do if ← eval? value e then return true else evalAny? value es

end

mutual

/-- The names in an expression, from the left. -/
def names : Expr → List String
  | lit name _ => [name]
  | not e => names e
  | and es => namesAll es
  | or es => namesAll es
  | imp a b => names a ++ names b
  | iff a b => names a ++ names b
  | xor a b => names a ++ names b

/-- The names in a list of expressions. -/
def namesAll : List Expr → List String
  | [] => []
  | e :: es => names e ++ namesAll es

end

mutual

/-- The number of gates: literals and negations are none. -/
def numGates : Expr → Nat
  | lit _ _ => 0
  | not e => numGates e
  | and es => 1 + numGatesAll es
  | or es => 1 + numGatesAll es
  | imp a b => 1 + numGates a + numGates b
  | iff a b => 1 + numGates a + numGates b
  | xor a b => 1 + numGates a + numGates b

/-- The number of gates in a list of expressions. -/
def numGatesAll : List Expr → Nat
  | [] => 0
  | e :: es => numGates e + numGatesAll es

end

/-! ### Normal form -/

/-- The negation of an expression, of which a negation in front is taken away and a literal turned over. -/
def negate : Expr → Expr
  | lit name negated => lit name !negated
  | not e => e
  | e => not e

/-- The terms of a conjunction; another expression is its own only term. -/
def conjuncts : Expr → List Expr
  | and es => es
  | e => [e]

/-- The terms of a disjunction; another expression is its own only term. -/
def disjuncts : Expr → List Expr
  | or es => es
  | e => [e]

/-- The conjunction of expressions, merged with those among them that are conjunctions. -/
def conj (es : List Expr) : Expr :=
  match es.flatMap conjuncts with
  | [e] => e
  | es => and es

/-- The disjunction of expressions, merged with those among them that are disjunctions. -/
def disj (es : List Expr) : Expr :=
  match es.flatMap disjuncts with
  | [e] => e
  | es => or es

mutual

/-- The normal form of an expression, or of its negation. -/
def normalizeTo (positive : Bool) : Expr → Expr
  | lit name negated => lit name (negated != !positive)
  | not e => normalizeTo (!positive) e
  | and es => if positive then conj (normalizeAll true es) else disj (normalizeAll false es)
  | or es => if positive then disj (normalizeAll true es) else conj (normalizeAll false es)
  | imp a b =>
    if positive then imp (normalizeTo true a) (normalizeTo true b)
    else conj [normalizeTo true a, normalizeTo false b]
  | iff a b =>
    if positive then iff (normalizeTo true a) (normalizeTo true b)
    else xor (normalizeTo true a) (normalizeTo true b)
  | xor a b =>
    if positive then xor (normalizeTo true a) (normalizeTo true b)
    else iff (normalizeTo true a) (normalizeTo true b)

/-- The normal forms of expressions, or of their negations. -/
def normalizeAll (positive : Bool) : List Expr → List Expr
  | [] => []
  | e :: es => normalizeTo positive e :: normalizeAll positive es

end

/-- The normal form of an expression. -/
def normalize (e : Expr) : Expr :=
  normalizeTo true e

end Expr

end Clausify
