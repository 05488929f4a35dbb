import Clausify.Document.Reading
import Clausify.Index
import Clausify.Value.Table

/-!
# Results

The result of a run is a formula together with the indices of the variables of the universe, by which assignments and
models are read.
-/

namespace Clausify

/-- What a run returns. -/
structure Result (I α : Type) where
  value : α
  clauses : List (List I)
  varMap : Table I
  numVars : Int

namespace Result

variable {I α : Type} [Index I]

/-- The formula as a document. -/
def toDocument (r : Result I α) : Except (List Fault) Document :=
  Document.ofValues (.int r.numVars) (r.clauses.map fun c => c.map Index.toValue)

/-- Fails unless all indices of variables can be looked up. -/
def checkIndices (r : Result I α) : Except Error Unit :=
  if r.varMap.values.all Index.hashable then .ok () else .error .unhashableKey

/-- The value that a model gives to an index: that of the last literal of the index, and false without any. The
literals of the model are given with their magnitudes. -/
def modelValue (model : List (I × I)) (i : I) : Bool :=
  match model.reverse.find? fun l => Index.same l.1 i with
  | some l => Index.positive l.2
  | none => false

/-- The assignment of a model. -/
def ofModel (r : Result I α) (model : List I) : Except Error Assignment := do
  let model ← model.mapM fun l => return (← Index.magnitude l, l)
  r.checkIndices
  return r.varMap.map fun _ i => modelValue model i

/-- The literals of an assignment. -/
def literals (r : Result I α) (a : Assignment) : Except Error (List I) :=
  a.entries.mapM fun (v, b) => match r.varMap.find? v with
    | some i => if b then .ok i else Index.negate i
    | none => .error (.unassignedVariable v)

end Result

end Clausify
