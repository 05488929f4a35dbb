import Clausify.Proofs.BruteForce
import Clausify.Proofs.Search
import Clausify.Solver.Solutions

/-!
# Solutions of a result

With a correct solver, solving a result gives an assignment of its variables that extends to a solution of the
formula, or nothing if the formula has no solution (`Result.solve_eq_ok`).  An index that the solver leaves out is
read as false; since no two literals of an answer contradict each other, all of them hold in what is read.
-/

namespace Clausify

open Cnf

/-! ### The solver is asked -/

private theorem mapM_solverLiteral {ls : List Int} (h : ∀ l ∈ ls, l ≠ 0) : ls.mapM solverLiteral = .ok ls :=
  mapM_eq_ok.2 (List.forall₂_same.2 fun l hl => if_neg (h l hl))

/-- A correct solver gives the right answer, also to a formula with the empty clause, of which it is not asked. -/
private theorem decideClauses_eq_ok {solvers : String → Option Solver} {name : String} {solver : Solver}
    (hs : solvers name = some solver) (hc : solver.Correct) {clauses : List (List Int)} {assumed : List Int}
    (hclauses : ∀ c ∈ clauses, ∀ l ∈ c, l ≠ 0) (hassumed : ∀ l ∈ assumed, l ≠ 0) :
    ∃ o, decideClauses solvers clauses assumed name = .ok o ∧ Solver.Right (assumed.map ([·]) ++ clauses) o := by
  unfold decideClauses
  by_cases he : clauses.any List.isEmpty = true
  · rw [if_pos he]
    refine ⟨none, rfl, ?_⟩
    rintro ⟨σ, hσ⟩
    obtain ⟨c, hc, hnil⟩ := List.any_eq_true.1 he
    obtain ⟨l, hl, -⟩ := hσ c (List.mem_append_right _ hc)
    rw [List.isEmpty_iff.1 hnil] at hl
    cases hl
  · have hmap : clauses.mapM (fun c => c.mapM solverLiteral) = .ok clauses :=
      mapM_eq_ok.2 (List.forall₂_same.2 fun c hc => mapM_solverLiteral (hclauses c hc))
    rw [if_neg he, hs]
    refine ⟨solver clauses assumed,
      bind_eq_ok.2 ⟨clauses, hmap, bind_eq_ok.2 ⟨assumed, mapM_solverLiteral hassumed, rfl⟩⟩, ?_⟩
    refine hc clauses assumed (fun c hmem => ⟨fun hnil => he ?_, hclauses c hmem⟩) hassumed
    exact List.any_eq_true.2 ⟨c, hmem, List.isEmpty_iff.2 hnil⟩

/-! ### The answer is read -/

namespace Result

variable {α : Type}

/-- The value that literals give to an index. -/
def valueOf (m : List Int) (i : Int) : Bool := modelValue (m.map fun l => ((l.natAbs : Int), l)) i

theorem holds_valueOf {m : List Int} {l : Int} (hl : l ∈ m) (hneg : -l ∉ m) : Holds (valueOf m) l := by
  unfold Holds valueOf modelValue
  cases hf : (m.map fun l => ((l.natAbs : Int), l)).reverse.find? fun p => Index.same p.1 (l.natAbs : Int) with
  | none =>
    have := List.find?_eq_none.1 hf ((l.natAbs : Int), l) (List.mem_reverse.2 (List.mem_map_of_mem hl))
    rw [Index.same_int, decide_eq_true rfl] at this
    exact absurd rfl this
  | some p =>
    obtain ⟨k, hk, rfl⟩ := List.mem_map.1 (List.mem_reverse.1 (List.mem_of_find?_eq_some hf))
    have hsame : (k.natAbs : Int) = l.natAbs := by simpa using List.find?_some hf
    -- the opposite literal is not among them
    have hkl : k = l := by
      by_contra hne
      have : k = -l := by omega
      exact hneg (this ▸ hk)
    rw [hkl]
    exact Index.positive_int l

/-- The assignment that is read from literals. -/
def reading (r : Result Int α) (m : List Int) : Assignment := r.varMap.map fun _ i => valueOf m i

theorem find?_reading {r : Result Int α} {m : List Int} {v : Value} {i : Int} (hv : (v, i) ∈ r.varMap.entries) :
    (r.reading m).find? v = some (valueOf m i) :=
  Table.find?_of_mem (List.mem_map_of_mem (f := fun e : Value × Int => (e.1, valueOf m e.2)) hv)

theorem ofModel_eq_ok (r : Result Int α) (m : List Int) : r.ofModel m = .ok (r.reading m) := by
  unfold ofModel
  have hmap : (m.mapM fun l => return (← Index.magnitude l, l)) =
      Except.ok (m.map fun l => ((l.natAbs : Int), l)) := by
    refine mapM_eq_ok.2 (List.forall₂_map_right_iff.2 (List.forall₂_same.2 fun l _ => rfl))
  exact bind_eq_ok.2 ⟨_, hmap, bind_eq_ok.2 ⟨(), r.checkIndices_eq_ok, rfl⟩⟩

/-- What a right answer for clauses becomes: an assignment of the variables that extends to a solution, or none. -/
def Solves (r : Result Int α) (cs : List (List Int)) : Option Assignment → Prop
  | none => ¬∃ τ, Satisfies τ cs
  | some a => a.keys = r.varMap.keys ∧ ∃ τ, r.Gives a τ ∧ Satisfies τ cs

/-- Solving a result under assumptions with a correct solver. -/
theorem solve_eq_ok {r : Result Int α} {solvers : String → Option Solver} {name : String} {solver : Solver}
    (hs : solvers name = some solver) (hc : solver.Correct) (hr : ∀ c ∈ r.clauses, ∀ l ∈ c, l ≠ 0) {a : Assignment}
    {lits : List Int} (ha : r.literals a = .ok lits) (hlits : ∀ l ∈ lits, l ≠ 0) :
    ∃ o, r.solve solvers a name = .ok o ∧ r.Solves (lits.map ([·]) ++ r.clauses) o := by
  obtain ⟨o, ho, hright⟩ := decideClauses_eq_ok hs hc hr hlits
  unfold solve
  cases o with
  | none => exact ⟨none, bind_eq_ok.2 ⟨lits, ha, bind_eq_ok.2 ⟨none, ho, rfl⟩⟩, hright⟩
  | some m =>
    obtain ⟨hm, hhit⟩ := hright
    have hid : m.map Index.ofInt = m := List.map_id m
    refine ⟨some (r.reading m), bind_eq_ok.2 ⟨lits, ha, bind_eq_ok.2 ⟨some m, ho, ?_⟩⟩, Table.keys_map _ _, valueOf m,
      fun e he => find?_reading he, fun c hmem => ?_⟩
    · dsimp only
      rw [hid, r.ofModel_eq_ok]
      rfl
    · obtain ⟨l, hl, hlm⟩ := hhit c hmem
      exact ⟨l, hl, holds_valueOf hlm (hm l hlm)⟩

end Result

end Clausify
