import Clausify.Cardinality
import Clausify.Expr.Encode

/-!
# Constraints

A constraint is a Boolean expression or a bound on how many of some named variables hold.
-/

namespace Clausify

/-- A constraint over named variables. -/
inductive Constraint where
  | expr (e : Expr)
  | atLeast (k : Nat) (names : List String)
  | atMost (k : Nat) (names : List String)
  | exactly (k : Nat) (names : List String)

namespace Constraint

/-- The name of the kind of a constraint. -/
def kind : Constraint → String
  | expr (.lit _ _) => "Lit"
  | expr (.not _) => "Not"
  | expr (.and _) => "And"
  | expr (.or _) => "Or"
  | expr (.imp _ _) => "Imp"
  | expr (.iff _ _) => "Iff"
  | expr (.xor _ _) => "Xor"
  | atLeast _ _ => "AtLeast"
  | atMost _ _ => "AtMost"
  | exactly _ _ => "Exactly"

/-- The names in a constraint. -/
def names : Constraint → List String
  | expr e => e.names
  | atLeast _ names | atMost _ names | exactly _ names => names

/-- Asserts a constraint. -/
def encode {I : Type} [Index I] : Constraint → Encoder I Unit
  | expr e => e.encode
  | atLeast k names => (Cardinality.atLeast (names.map (Expr.literal · false)) (k : Int)).encode
  | atMost k names => (Cardinality.atMost (names.map (Expr.literal · false)) (k : Int)).encode
  | exactly k names => (Cardinality.exactly (names.map (Expr.literal · false)) (k : Int)).encode

end Constraint

/-- What a client hands over for a constraint: a constraint, or something of another kind, which is no expression for
some reason. -/
inductive Candidate where
  | constraint (c : Constraint)
  | other (kind : String) (reason : Fault.Cause)

namespace Candidate

/-- The constraint that was handed over. -/
def get : Candidate → Except Error Constraint
  | constraint c => .ok c
  | other kind _ => .error (.unsupportedConstraint kind)

/-- The expression that was handed over, for an operation that only expressions have. -/
def expr : Candidate → Except Error Expr
  | constraint (.expr e) => .ok e
  | _ => .error .noOperation

/-- Why something is no expression that can be negated. -/
def notNegatable (reason : Fault.Cause) : Error :=
  .invalidRecord [⟨[.field "term"], reason⟩]

/-- The negation of the expression that was handed over. -/
def negate : Candidate → Except Error Expr
  | constraint (.expr e) => .ok e.negate
  | constraint _ => .error (notNegatable .unknownTag)
  | other _ reason => .error (notNegatable reason)

/-- The normal form of what was handed over; a bound is its own. -/
def normalize : Candidate → Except Error Constraint
  | constraint (.expr e) => .ok (.expr e.normalize)
  | constraint c => .ok c
  | other _ _ => .error .noOperation

/-- The encoder of what was handed over. -/
def encode {I : Type} [Index I] (c : Candidate) : Except Error (Encoder I Unit) :=
  return (← c.get).encode

end Candidate

end Clausify
