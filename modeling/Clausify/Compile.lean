import Clausify.Constraint
import Clausify.Run

/-!
# Compilation

Constraints are compiled to a formula over the variables that they name, in the order of the names, or over a universe
that is given.
-/

namespace Clausify

/-- The names in constraints, each once and in order. -/
def sortedNames (cs : List Constraint) : List String :=
  ((cs.flatMap Constraint.names).eraseDups).mergeSort fun s t => s ≤ t

/-- The variables to compile over. A given universe must have all names. -/
def universeFor (names : List String) : Option (List Value) → Except Error (List Value)
  | none => .ok (names.map .str)
  | some vars =>
    if !vars.all Value.hashable then .error .unhashableKey
    else match names.filter fun name => !vars.contains (.str name) with
      | [] => .ok vars
      | missing => .error (.namesOutsideUniverse missing)

/-- Records the constraints that are taken. -/
def Journal.constraints (j : Journal) (cs : List Constraint) : Journal :=
  cs.zipIdx.foldl (fun j (c, i) => j.event (.constraintTaken i c.kind)) j

/-- Compiles constraints. -/
def compile {I : Type} [Index I] (candidates : List Candidate) (vars : Option (List Value)) (config : Config) :
    Journaled (Result I Unit) := do
  let cs ← Journaled.ofExcept (candidates.mapM Candidate.get)
  let vars ← Journaled.ofExcept (universeFor (sortedNames cs) vars)
  modify fun j => j.constraints cs
  run vars (.encoder (.each cs Constraint.encode)) none config

end Clausify
