import Clausify.Fault

/-!
# Documents

A document is a formula in conjunctive normal form over the variables 1, …, `numVars`. The empty clause is allowed
and makes it unsatisfiable. `Document.ofClauses` succeeds exactly on clauses with nonzero literals in that range.
-/

namespace Clausify

/-- A formula in conjunctive normal form. -/
structure Document where
  numVars : Nat
  clauses : List (List Int)
  inRange : ∀ c ∈ clauses, ∀ l ∈ c, l ≠ 0 ∧ l.natAbs ≤ numVars

instance : DecidableEq Document := fun d e =>
  decidable_of_iff (d.numVars = e.numVars ∧ d.clauses = e.clauses) (by cases d; cases e; simp)

namespace Document

/-- What is wrong with a literal: it is zero, or beyond the number of variables where that is known. -/
def literalFault? (numVars : Option Nat) (clause : Nat) (l : Int) : Option Rule :=
  if l = 0 then some (.zeroInClause clause)
  else match numVars with
    | some n => if n < l.natAbs then some (.literalBeyond l n clause) else none
    | none => none

/-- What is wrong with the first bad literal. -/
def clausesFault? (numVars : Option Nat) (clauses : List (List Int)) : Option Rule :=
  clauses.zipIdx.findSome? fun (c, i) => c.findSome? (literalFault? numVars i)

theorem inRange_of_clausesFault? {n : Nat} {clauses : List (List Int)}
    (h : clausesFault? (some n) clauses = none) : ∀ c ∈ clauses, ∀ l ∈ c, l ≠ 0 ∧ l.natAbs ≤ n := by
  intro c hc l hl
  obtain ⟨i, hi, rfl⟩ := List.getElem_of_mem hc
  have hf := List.findSome?_eq_none_iff.mp h (clauses[i], i) (List.mk_mem_zipIdx_iff_getElem?.mpr (by simp [hi]))
  have hl := List.findSome?_eq_none_iff.mp hf l hl
  simp only [literalFault?] at hl
  split at hl
  · simp at hl
  · split at hl
    · simp at hl
    · omega

/-- A fault of the clauses. -/
def clausesFault (r : Rule) : Fault := ⟨[.field "clauses"], .rule r⟩

/-- The document of fields that were read. Where the number of variables is not known, the clauses are still searched
for zeros. -/
def ofFields (numVars : Except (List Fault) Nat) (clauses : Except (List Fault) (List (List Int))) :
    Except (List Fault) Document :=
  match numVars, clauses with
  | .ok n, .ok cs =>
    match h : clausesFault? (some n) cs with
    | none => .ok ⟨n, cs, inRange_of_clausesFault? h⟩
    | some r => .error [clausesFault r]
  | .error fs, .ok cs => .error (fs ++ (clausesFault? none cs).toList.map clausesFault)
  | .ok _, .error gs => .error gs
  | .error fs, .error gs => .error (fs ++ gs)

/-- The document of clauses over `numVars` variables. -/
def ofClauses (numVars : Int) (clauses : List (List Int)) : Except (List Fault) Document :=
  let size := if 0 ≤ numVars then .ok numVars.toNat else .error [⟨[.field "num_vars"], .belowBound⟩]
  ofFields size (.ok clauses)

/-- Whether the false clause is among the clauses. -/
def hasEmptyClause (d : Document) : Bool :=
  d.clauses.any List.isEmpty

end Document

end Clausify
