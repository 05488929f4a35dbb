/-!
# Solvers

A solver takes clauses and assumed literals. It returns nothing if they are unsatisfiable, and else a list of literals
that are true, among them the assumed ones and one of every clause. `Solver.search` is one: it assigns the literals of
unit clauses as long as there are any, and else tries both values of a literal of the first clause.
-/

namespace Clausify

/-- A solver for clauses under assumed literals. -/
abbrev Solver := List (List Int) → List Int → Option (List Int)

namespace Solver

/-- The clauses that are left when a literal is true. -/
def assign (l : Int) (clauses : List (List Int)) : List (List Int) :=
  (clauses.filter fun c => !c.contains l).map fun c => c.filter (· ≠ -l)

/-- The literal of a unit clause. -/
def unit? : List (List Int) → Option Int
  | [] => none
  | [l] :: _ => some l
  | _ :: cs => unit? cs

/-- Extends the true literals `trail` to a solution of the clauses that are left. Every step takes a literal out of
them, so their size bounds the depth. -/
def extend : Nat → List Int → List (List Int) → Option (List Int)
  | _, trail, [] => some trail
  | 0, _, _ :: _ => none
  | depth + 1, trail, c :: cs =>
    if (c :: cs).any List.isEmpty then none
    else match unit? (c :: cs) with
      | some l => extend depth (l :: trail) (assign l (c :: cs))
      | none => match c with
        | [] => none
        | l :: _ =>
          match extend depth (l :: trail) (assign l (c :: cs)) with
          | some m => some m
          | none => extend depth (-l :: trail) (assign (-l) (c :: cs))

/-- Searches for a solution. -/
def search : Solver := fun clauses assumed =>
  let cs := assumed.map ([·]) ++ clauses
  extend (cs.flatten.length + 1) [] cs

/-- The solvers by their names. -/
def named? (name : String) : Option Solver :=
  if ["minisat22", "glucose3", "glucose4", "cadical153"].contains name then some search else none

end Solver

end Clausify
