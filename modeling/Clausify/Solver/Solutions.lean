import Clausify.Result.Models
import Clausify.Solver.Basic

/-!
# Solving

A formula is solved over its universe, where auxiliary indices are left out of the solutions. Solutions are enumerated
by ruling out each one found and running the encoder again. All of it works with any table of solvers.
-/

namespace Clausify

variable {I α : Type} [Index I]

/-- A signed index as a literal of solvers, which are integers other than zero. -/
def solverLiteral (l : I) : Except Error Int :=
  match (Index.toValue l).asInt? with
  | some n => if n = 0 then .error .zeroForSolver else .ok n
  | none => .error .unsuitableValue

/-- Solves clauses under assumed literals with a named solver. The name does not matter if a clause is empty. -/
def decideClauses (solvers : String → Option Solver) (clauses : List (List I)) (assumed : List I)
    (solverName : String) : Except Error (Option (List Int)) :=
  if clauses.any List.isEmpty then .ok none
  else match solvers solverName with
    | some solver => do
      let clauses ← clauses.mapM fun c => c.mapM solverLiteral
      return solver clauses (← assumed.mapM solverLiteral)
    | none => .error (.solverUnavailable solverName)

/-- Whether clauses are satisfiable under assumed literals. -/
def isSatisfiable (solvers : String → Option Solver) (clauses : List (List I)) (assumed : List I)
    (solverName : String) : Except Error Bool :=
  return (← decideClauses solvers clauses assumed solverName).isSome

/-- A model that agrees with a partial assignment, if there is one. -/
def Result.solve (r : Result I α) (solvers : String → Option Solver) (a : Assignment) (solverName : String) :
    Except Error (Option Assignment) := do
  let assumed ← r.literals a
  match ← decideClauses solvers r.clauses assumed solverName with
  | some model => return some (← r.ofModel (model.map Index.ofInt))
  | none => return none

/-! ### Enumeration -/

/-- The encoder with assignments ruled out. -/
def blocking (encoder : Supplied I α) (found : List Assignment) : Except Error (Encoder I Unit) :=
  return (← encoder.receiver).andThen (.each found .exclude)

/-- Looks for a solution other than those found. -/
def nextSolution (solvers : String → Option Solver) (vars : List Value) (encoder : Supplied I α) (config : Config)
    (found : List Assignment) : Journaled (Option Assignment) := do
  let e ← Journaled.ofExcept (blocking encoder found)
  let r ← run vars (.encoder e) none config
  Journaled.ofExcept (r.solve solvers .empty config.solverName)

/-- Adds solutions to those found, at most `rounds` many. -/
def collect (next : List Assignment → Journaled (Option Assignment)) :
    Nat → List Assignment → Journaled (List Assignment)
  | 0, found => return found
  | rounds + 1, found => do
    match ← next found with
    | some a => collect next rounds (found ++ [a])
    | none => return found

/-- The solutions of an encoder, up to the limit that is given or configured. Without one there are at most as many
rounds as assignments of the variables of the first solution. -/
def solutions (solvers : String → Option Solver) (vars : List Value) (encoder : Supplied I α)
    (limit : Option Int) (config : Config) : Journaled (List Assignment) := do
  let next := nextSolution solvers vars encoder config
  let found ← match limit <|> config.maxSolutions with
    | some n => collect next n.toNat []
    | none => match ← next [] with
      | some a => collect next (Nat.pow 2 a.size) [a]
      | none => pure []
  modify fun j => j.notice (.solutionsEnumerated found.length)
  return found

end Clausify
