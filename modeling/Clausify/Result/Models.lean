import Clausify.Run

/-!
# Brute force

The models of a formula are the assignments of the universe that some values of the auxiliary indices complete to
values that satisfy it. They are found by trying all values, false before true.
-/

namespace Clausify

/-- Values of indices, where they have one. -/
abbrev Valuation (I : Type) := I → Option Bool

namespace Valuation

variable {I : Type}

/-- No index has a value. -/
def empty : Valuation I := fun _ => none

variable [Index I]

/-- Gives an index a value. -/
def set (σ : Valuation I) (i : I) (b : Bool) : Valuation I :=
  fun j => if Index.same j i then some b else σ j

/-- Whether a literal holds. -/
def literal (σ : Valuation I) (l : I) : Except Error Bool := do
  match σ (← Index.magnitude l) with
  | some b => return b == Index.positive l
  | none => throw .unassignedIndex

/-- Whether all clauses hold. The first clause that does not, and the first literal of a clause that does, ends the
search. -/
def satisfies (σ : Valuation I) (clauses : List (List I)) : Except Error Bool :=
  clauses.allM fun c => c.anyM σ.literal

/-- Whether some values of further indices complete the valuation to one that satisfies the clauses. -/
def extends? (σ : Valuation I) (clauses : List (List I)) : List I → Except Error Bool
  | [] => σ.satisfies clauses
  | i :: is => do
    if ← (σ.set i false).extends? clauses is then return true
    (σ.set i true).extends? clauses is

end Valuation

/-- The rows of `n` truth values in lexicographic order, false before true. -/
def rows : Nat → List (List Bool)
  | 0 => [[]]
  | n + 1 => (rows n).map (false :: ·) ++ (rows n).map (true :: ·)

/-- The rows that pass a test, which is made on each row in order. -/
def selectRows (p : List Bool → Except Error Bool) : List (List Bool) → Except Error (List (List Bool))
  | [] => .ok []
  | bs :: bss => do
    let keep ← p bs
    let rest ← selectRows p bss
    return if keep then bs :: rest else rest

private theorem map_fst_zip_sublist {α β : Type} : ∀ (as : List α) (bs : List β), ((as.zip bs).map (·.1)).Sublist as
  | [], _ => by simp
  | _ :: _, [] => by simp
  | _ :: as, _ :: bs => by simpa using map_fst_zip_sublist as bs

namespace Result

variable {I α : Type}

/-- The assignment that gives the variables of the universe the values of a row. -/
def ofRow (r : Result I α) (bs : List Bool) : Assignment where
  entries := r.varMap.keys.zip bs
  distinct := r.varMap.distinct.sublist (map_fst_zip_sublist _ _)

variable [Index I]

/-- The values of an assignment for the variables of the universe, in order. -/
def row (r : Result I α) (a : Assignment) : Except Error (List Bool) :=
  r.varMap.entries.mapM fun (v, i) => match a.find? v with
    | some b => if Index.hashable i then .ok b else .error .unhashableKey
    | none => .error .unassignedIndex

/-- The indices that a row gives values to. -/
def valuation (r : Result I α) (bs : List Bool) : Valuation I :=
  (r.varMap.values.zip bs).foldl (fun σ p => σ.set p.1 p.2) .empty

/-- The indices up to the number of variables that name no variable. -/
def auxiliary (r : Result I α) : List I :=
  ((List.range r.numVars.toNat).map fun (i : Nat) => Index.ofInt (i + 1)).filter fun i =>
    !r.varMap.values.any (Index.same i)

/-- Whether a row belongs to a model. -/
def isModelRow (r : Result I α) (bs : List Bool) : Except Error Bool := do
  r.checkIndices
  (r.valuation bs).extends? r.clauses r.auxiliary

/-- Whether an assignment is a model. -/
def isModel (r : Result I α) (a : Assignment) : Except Error Bool := do
  r.isModelRow (← r.row a)

/-- All models in lexicographic order. -/
def models (r : Result I α) : Except Error (List Assignment) := do
  let bss ← selectRows r.isModelRow (rows r.varMap.size)
  return bss.map r.ofRow

/-- The assignments on which the formula and a predicate differ. -/
def mismatches (r : Result I α) (p : Assignment → Except Error Bool) : Except Error (List Assignment) := do
  let differs (bs : List Bool) : Except Error Bool := do
    return (← r.isModelRow bs) != (← p (r.ofRow bs))
  let bss ← selectRows differs (rows r.varMap.size)
  return bss.map r.ofRow

/-- Whether the models are the assignments that satisfy a predicate. -/
def isEquivalent (r : Result I α) (p : Assignment → Except Error Bool) : Except Error Bool :=
  return (← r.mismatches p).isEmpty

end Result

end Clausify
