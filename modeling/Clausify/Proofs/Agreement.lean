import Clausify.Proofs.Assignments
import Clausify.Proofs.Enumeration

/-!
# Solving agrees with brute force

Under assumptions, a correct solver finds one of the models that agree with them, or there is none
(`Result.solve_agrees`).  Prescribing the assumptions behind the encoder gives a formula that is satisfiable exactly
if solving under them finds a model (`solve_agrees_with_models`).  Both rest on positive indices of the variables: of
a negative index the solver and the brute force have different ideas (`solve_disagrees_of_other_indices`).
-/

namespace Clausify

/-- All values of the other assignment are among those of the first. -/
def Assignment.Agrees (m a : Assignment) : Prop := ∀ e ∈ a.entries, m.find? e.1 = some e.2

namespace Result

variable {α : Type} {r : Result Int α} {a m : Assignment} {τ : Int → Bool}

private theorem Gives.find?_eq (h : r.Gives m τ) {v : Value} {i : Int} (hv : r.varMap.find? v = some i) :
    m.find? v = some (τ i) := by
  obtain ⟨k, hk, hkv⟩ := Table.find?_eq_some_iff.1 hv
  rw [← m.find?_congr hkv]
  exact h (k, i) hk

/-- The assumed literals are nonzero, and hold exactly where the variables have the assumed values. -/
private theorem exists_literals (hpos : ∀ i ∈ r.varMap.values, 0 < i)
    (ha : ∀ v ∈ a.keys, r.varMap.contains v = true) : ∃ lits, r.literals a = .ok lits ∧ (∀ l ∈ lits, l ≠ 0) ∧
      ∀ m τ, r.Gives m τ → (Cnf.Satisfies τ (lits.map ([·])) ↔ m.Agrees a) := by
  obtain ⟨lits, hlits⟩ := exists_literals_eq_ok ha
  have hindex {v : Value} {i : Int} (hi : r.varMap.find? v = some i) : 0 < i := by
    obtain ⟨k, hk, -⟩ := Table.find?_eq_some_iff.1 hi
    exact hpos i (List.mem_map_of_mem (f := (·.2)) hk)
  refine ⟨lits, hlits, fun l hl => ?_, fun m τ hg => ?_⟩
  · obtain ⟨e, -, i, hi, rfl⟩ := (mem_literals_iff hlits).1 hl
    have := hindex hi
    split <;> omega
  · have hentries := literals_eq_ok.1 hlits
    unfold Cnf.Satisfies Assignment.Agrees
    rw [List.forall_mem_map]
    simp only [List.mem_singleton, exists_eq_left]
    clear ha hlits
    generalize a.entries = es at hentries ⊢
    induction hentries with
    | nil => simp
    | cons hl _ ih =>
      obtain ⟨i, hi, rfl⟩ := hl
      rw [List.forall_mem_cons, List.forall_mem_cons, hg.find?_eq hi, Option.some.injEq]
      exact and_congr (Cnf.holds_signed (hindex hi) _) ih

/-- Some models agree with the assumptions exactly if solving under them finds one. -/
theorem solve_agrees (hr : r.Sound) (hpos : ∀ i ∈ r.varMap.values, 0 < i)
    (ha : ∀ v ∈ a.keys, r.varMap.contains v = true) {solvers : String → Option Solver}
    {name : String} {solver : Solver} (hs : solvers name = some solver) (hc : solver.Correct) :
    ∃ ms o, r.models = .ok ms ∧ r.solve solvers a name = .ok o ∧ (o = none ↔ ∀ m ∈ ms, ¬m.Agrees a) ∧
      ∀ m, o = some m → m ∈ ms ∧ m.Agrees a := by
  obtain ⟨ms, hms, hmem⟩ := models_eq_ok hr
  obtain ⟨lits, hlits, hnonzero, hassumed⟩ := exists_literals hpos ha
  have hclauses : ∀ c ∈ r.clauses, ∀ l ∈ c, l ≠ 0 := by
    intro c hc l hl
    have := (hr.clauses_within c hc l hl).1
    omega
  obtain ⟨o, ho, hsolves⟩ := solve_eq_ok hs hc hclauses hlits hnonzero
  refine ⟨ms, o, hms, ho, ?_⟩
  cases o with
  | none =>
    refine ⟨⟨fun _ m hm hagrees => hsolves ?_, fun _ => rfl⟩, fun m h => absurd h.symm (Option.some_ne_none m)⟩
    -- a model that agrees would solve the clauses with the assumptions
    obtain ⟨-, τ, hgives, hsat⟩ := (hmem m).1 hm
    exact ⟨τ, Cnf.satisfies_append.2 ⟨(hassumed m τ hgives).2 hagrees, hsat⟩⟩
  | some m =>
    obtain ⟨hkeys, τ, hgives, hsat⟩ := hsolves
    obtain ⟨hunits, hsat⟩ := Cnf.satisfies_append.1 hsat
    have hm : m ∈ ms := (hmem m).2 ⟨hkeys, τ, hgives, hsat⟩
    have hagrees : m.Agrees a := (hassumed m τ hgives).1 hunits
    refine ⟨⟨fun h => absurd h (Option.some_ne_none m), fun h => absurd hagrees (h m hm)⟩, ?_⟩
    rintro _ ⟨⟩
    exact ⟨hm, hagrees⟩

/-- A solution of the formula gives the variables some values. -/
private theorem exists_satisfies_iff (r : Result Int α) :
    (∃ τ, Cnf.Satisfies τ r.clauses) ↔ ∃ m : Assignment, m.keys = r.varMap.keys ∧ r.Admits m := by
  constructor
  · rintro ⟨τ, hτ⟩
    refine ⟨r.varMap.map fun _ i => τ i, Table.keys_map _ _, τ, fun e he => ?_, hτ⟩
    exact Table.find?_of_mem (List.mem_map_of_mem (f := fun e : Value × Int => (e.1, τ e.2)) he)
  · rintro ⟨m, -, τ, -, hτ⟩
    exact ⟨τ, hτ⟩

end Result

namespace Encoder.Composed

variable {α : Type} {e : Encoder Int α} {vars : List Value} {embedding : Option (Table Value)} {config : Config}
  {j j' : Journal} {r : Result Int α} {a : Assignment}

private theorem values_pos (he : e.Composed) (h : run vars (.encoder e) embedding config j = .ok r j') :
    ∀ i ∈ r.varMap.values, 0 < i := by
  obtain ⟨m, hm, hrun⟩ := he.runOn_of_run h
  obtain ⟨t, -, -, hr⟩ := hrun true true .empty
  rw [hr]
  exact fun i hi => ((VarMap.ofUniverse_spec hm).values_between i hi).1

/-- With an assignment prescribed behind it, an encoder admits the assignments that it admits and that agree. -/
private theorem run_prescribing (he : e.Composed) (h : run vars (.encoder e) embedding config j = .ok r j')
    (ha : ∀ v ∈ a.keys, r.varMap.contains v = true) (config' : Config) (k : Journal) :
    ∃ r' k', run vars (.encoder (e.andThen (.prescribe a))) embedding config' k = .ok r' k' ∧
      r'.varMap = r.varMap ∧ ∀ m, m.keys = vars → (r'.Admits m ↔ r.Admits m ∧ m.Agrees a) := by
  obtain ⟨-, hkeys⟩ := he.result_of_run h
  have hnamed : ∀ e ∈ a.entries, Named vars e.1 := by
    intro e he
    have hcontains := ha e.1 (List.mem_map_of_mem he)
    rw [Table.contains_iff, hkeys] at hcontains
    exact hcontains
  have hmeans : (Encoder.prescribe a).Means (Named vars) fun ρ => ∀ e ∈ a.entries, ρ e.1 = e.2 :=
    Statement.means (p := .prescribe a) hnamed
  obtain ⟨r', k', hr', -, hmap, hadmits⟩ := he.run_andThen h hmeans config' k
  refine ⟨r', k', hr', hmap, fun m hm => (hadmits m hm).trans (and_congr_right fun _ => ?_)⟩
  refine forall₂_congr fun e he => ?_
  obtain ⟨w, hw, hsame⟩ := hnamed e he
  obtain ⟨b, hb⟩ := Table.exists_find?_of_contains (t := m) (Table.contains_iff.2 ⟨w, hm ▸ hw, hsame⟩)
  dsimp only
  rw [hb, Option.getD_some, Option.some.injEq]

end Encoder.Composed

/-- Solving under assumptions finds a model that agrees with them, or there is none, for any result of which the
variables have different positive indices and the clauses nonzero literals up to the number of variables.  Behind an
encoder that the library can build, clauses that prescribe the assumptions leave a satisfiable formula exactly if
solving finds a model. -/
theorem solve_agrees_with_models {solvers : String → Option Solver} {name : String} {solver : Solver}
    (hs : solvers name = some solver) (hc : solver.Correct) {α : Type} (a : Assignment) :
    (∀ r : Result Int α, r.varMap.values.Nodup → (∀ i ∈ r.varMap.values, 0 < i) →
      (∀ c ∈ r.clauses, ∀ l ∈ c, l ≠ 0 ∧ (l.natAbs : Int) ≤ r.numVars) →
      (∀ v ∈ a.keys, r.varMap.contains v = true) →
      ∃ ms o, r.models = .ok ms ∧ r.solve solvers a name = .ok o ∧ (o = none ↔ ∀ m ∈ ms, ¬m.Agrees a) ∧
        ∀ m, o = some m → m ∈ ms ∧ m.Agrees a) ∧
    ∀ (e : Encoder Int α) (vars : List Value) (embedding : Option (Table Value)) (config : Config) (j j' : Journal)
      (r : Result Int α), e.Composed → run vars (.encoder e) embedding config j = .ok r j' →
      (∀ v ∈ a.keys, r.varMap.contains v = true) → ∀ config' k,
      ∃ r' k' o, run vars (.encoder (e.andThen (.prescribe a))) embedding config' k = .ok r' k' ∧
        r.solve solvers a name = .ok o ∧ ((∃ τ, Cnf.Satisfies τ r'.clauses) ↔ o ≠ none) := by
  constructor
  · intro r hnodup hpos hwithin ha
    refine Result.solve_agrees ⟨hnodup, fun c hc l hl => ?_⟩ hpos ha hs hc
    have := hwithin c hc l hl
    omega
  · intro e vars embedding config j j' r he h ha config' k
    obtain ⟨hsound, hkeys⟩ := he.result_of_run h
    obtain ⟨ms, o, hms, ho, hnone, -⟩ := Result.solve_agrees hsound (he.values_pos h) ha hs hc
    obtain ⟨r', k', hr', hmap, hadmits⟩ := he.run_prescribing h ha config' k
    refine ⟨r', k', o, hr', ho, ?_⟩
    rw [r'.exists_satisfies_iff, hmap, hkeys, ne_eq, hnone]
    simp only [not_forall, not_not]
    constructor
    · rintro ⟨m, hm, hadm⟩
      obtain ⟨hadm, hagrees⟩ := (hadmits m hm).1 hadm
      exact ⟨m, (he.mem_models h hms m).2 ⟨hm, hadm⟩, hagrees⟩
    · rintro ⟨m, hm, hagrees⟩
      obtain ⟨hm, hadm⟩ := (he.mem_models h hms m).1 hm
      exact ⟨m, hm, (hadmits m hm).2 ⟨hadm, hagrees⟩⟩

/-- Of the models of `a` or `b`, with a temporary that implies `b` where `a` fails, one has `b` false. -/
theorem solve_agrees_with_models_of_temporary :
    let vars : List Value := [.str "a", .str "b"]
    let e : Encoder Int Unit := .withFresh 1 (.requireAll
      [[.lift (.named (.str "a") true), .temp 0 true], [.temp 0 false, .lift (.named (.str "b") true)]])
    let a : Assignment := ⟨[(.str "b", false)], by decide⟩
    ∃ (r : Result Int Unit) (j : Journal), run vars (.encoder e) none {} .empty = .ok r j ∧
      (∃ ms m, r.models = .ok ms ∧ r.solve Solver.named? a "cadical153" = .ok (some m) ∧ m ∈ ms ∧ m.Agrees a) ∧
      ∃ r' j', run vars (.encoder (e.andThen (.prescribe a))) none {} .empty = .ok r' j' ∧
        ∃ τ, Cnf.Satisfies τ r'.clauses := by
  intro vars e a
  have he : e.Composed := (Encoder.composed_requireAll _).withFresh 1
  let table : Table Int := ⟨[(.str "a", 1), (.str "b", 2)], by decide⟩
  let r : Result Int Unit := ⟨(), [[1, 3], [-3, 2]], table, 3⟩
  obtain ⟨j, hrun⟩ : ∃ j, run vars (.encoder e) none {} .empty = .ok r j := ⟨_, rfl⟩
  have ha : ∀ v ∈ a.keys, r.varMap.contains v = true := by decide
  have hsolver : Solver.named? "cadical153" = some Solver.search := rfl
  obtain ⟨hmodels, hprescribed⟩ := solve_agrees_with_models hsolver Solver.search_correct (α := Unit) a
  obtain ⟨ms, o, hms, ho, -, hsome⟩ := hmodels r (by decide) (by decide) (by decide) ha
  obtain ⟨r', j', o', hr', ho', hiff⟩ := hprescribed e vars none {} .empty j r he hrun ha {} .empty
  obtain ⟨m, hm⟩ : ∃ m, r.solve Solver.named? a "cadical153" = .ok (some m) := ⟨_, rfl⟩
  cases ho.symm.trans hm
  cases ho'.symm.trans hm
  obtain ⟨hmem, hagrees⟩ := hsome m rfl
  exact ⟨r, j, hrun, ⟨ms, m, hms, hm, hmem, hagrees⟩, r', j', hr', hiff.2 (Option.some_ne_none m)⟩

/-- Where a client gives a variable the index -1, brute force has both of its values and the solver that of the index
1, and neither the index nor the literal 0 can be handed to a solver. -/
theorem solve_disagrees_of_other_indices :
    let a : Assignment := ⟨[(.str "a", true)], by decide⟩
    let amended (cs : List (List Int)) (i : Int) : Encoder Int Unit := .modify fun s =>
      { s with clauses := cs, varMap := .ofTable (Table.empty.insert (.str "a") i) }
    let returned (cs : List (List Int)) (i : Int) (r : Result Int Unit) : Prop :=
      ∃ j, run [.str "a"] (.encoder (amended cs i)) none { checkInvariants := false } .empty = .ok r j
    Solver.named? "minisat22" = some Solver.search ∧ Solver.search.Correct ∧
      (∃ r, returned [[1]] (-1) r ∧ r.varMap.values = [-1] ∧ r.clauses = [[1]] ∧ r.numVars = 1 ∧
        (∃ ms, r.models = .ok ms ∧ ∃ m ∈ ms, m.Agrees a) ∧ r.solve Solver.named? a "minisat22" = .ok none) ∧
      (∃ r, returned [[1]] 0 r ∧ r.varMap.values = [0] ∧ r.clauses = [[1]] ∧ r.numVars = 1 ∧
        (∃ ms, r.models = .ok ms ∧ ∃ m ∈ ms, m.Agrees a) ∧
        r.solve Solver.named? a "minisat22" = .error .zeroForSolver) ∧
      ∃ r, returned [[0]] 1 r ∧ r.varMap.values = [1] ∧ r.clauses = [[0]] ∧ r.numVars = 1 ∧
        r.models = .error .unassignedIndex ∧ r.solve Solver.named? a "minisat22" = .error .zeroForSolver := by
  intro a amended returned
  have hagrees : Assignment.Agrees a a := fun e he => Table.find?_of_mem he
  refine ⟨rfl, Solver.search_correct, ?_, ?_, ?_⟩
  · exact ⟨_, ⟨_, rfl⟩, rfl, rfl, rfl, ⟨_, rfl, a, .tail _ (.head _), hagrees⟩, rfl⟩
  · exact ⟨_, ⟨_, rfl⟩, rfl, rfl, rfl, ⟨_, rfl, a, .tail _ (.head _), hagrees⟩, rfl⟩
  · exact ⟨_, ⟨_, rfl⟩, rfl, rfl, rfl, rfl, rfl⟩

end Clausify
