import Clausify.Encoder.Scope

/-!
# Clauses

The encoders that add clauses to the formula.
-/

namespace Clausify.Encoder

variable {I : Type} [Index I]

/-- Adds a clause. -/
def require (clause : List Literal) : Encoder I Unit where
  step s := match s.addClause clause with
    | .ok t => .ok () t
    | .error x => .error x s

/-- Adds clauses in order. -/
def requireAll (clauses : List (List Literal)) : Encoder I Unit :=
  each clauses require

/-- Rules out an assignment: some variable has another value. -/
def exclude (a : Assignment) : Encoder I Unit :=
  require (a.entries.map fun e => .named e.1 !e.2)

/-- Prescribes an assignment, one clause for each variable. -/
def prescribe (a : Assignment) : Encoder I Unit :=
  each a.entries fun e => require [.named e.1 e.2]

end Clausify.Encoder
