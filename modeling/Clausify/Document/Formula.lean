import Clausify.Document.Reading
import Clausify.Index

/-!
# Formulas of solvers

A solver takes clauses together with a number of variables, which it does not check against each other.
-/

namespace Clausify

/-- A formula as solvers take it. -/
structure Formula (I : Type) where
  numVars : I
  clauses : List (List I)
deriving DecidableEq

namespace Formula

variable {I : Type} [Index I]

/-- The formula of clauses, with the largest variable as its number of variables. -/
def ofClauses (clauses : List (List I)) : Except Error (Formula I) := do
  let vars ← clauses.flatten.mapM Index.magnitude
  return ⟨vars.foldl (fun n v => if Index.le n v then v else n) (Index.ofInt 0), clauses⟩

/-- The formula of a document. -/
def ofDocument (d : Document) : Formula Int :=
  ⟨d.numVars, d.clauses⟩

/-- The document of a formula. -/
def toDocument (f : Formula I) : Except (List Fault) Document :=
  Document.ofValues (Index.toValue f.numVars) (f.clauses.map fun c => c.map Index.toValue)

end Formula

end Clausify
