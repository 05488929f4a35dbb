import Clausify.Proofs.Assembly
import Clausify.Proofs.Propagation
import Clausify.Proofs.Spending
import Mathlib.Tactic.Ring

/-!
# The registers of the sequential counter

The counter of `n` literals up to `k` has a row of `k` registers for each literal but the last, and keeps them in a
scope of `(n - 1) * k` temporaries: register `j` of row `i` is temporary `i * k + (j - 1)`.  The rows fill the scope
without gap or overlap (`Counter.Fills`): what a clause asks the scope for is there, two registers are different
temporaries, and each temporary is a register of some clause.

The clauses are counted row by row.  The first literal has `k`, each one in between `2 * k + 1` and the last one a
single clause, none with more than three literals.  So many are emitted, and so wide, behind any assumptions.
-/

namespace Clausify

/-! ### Rows and columns -/

namespace Counter

variable {n k i j : Nat} {x : Literal} {xs : List Literal}

private theorem register_injective {i' j' : Nat} (hj : 1 ≤ j) (hjk : j ≤ k) (hj' : 1 ≤ j') (hjk' : j' ≤ k)
    (h : register k i j = register k i' j') : i = i' ∧ j = j' := by
  have hnumber : i * k + (j - 1) = i' * k + (j' - 1) := by
    unfold register Literal.temp at h
    injection h with hvar
    injection hvar with hint
    exact Int.ofNat_inj.1 hint
  constructor
  · rw [← register_div (i := i) hj hjk, hnumber, register_div hj' hjk']
  · have hcolumn : j - 1 = j' - 1 := by
      rw [← register_mod (i := i) hj hjk, hnumber, register_mod hj' hjk']
    omega

/-- Each number below the size is that of a register. -/
private theorem exists_register {t : Nat} (ht : t < size n k) :
    ∃ i j, i + 1 < n ∧ 1 ≤ j ∧ j ≤ k ∧ i * k + (j - 1) = t := by
  have hk : 0 < k := by
    rcases Nat.eq_zero_or_pos k with rfl | hk
    · exact absurd ht (Nat.not_lt_zero t)
    · exact hk
  have hrow : t / k < n - 1 := (Nat.div_lt_iff_lt_mul hk).2 ht
  exact ⟨t / k, t % k + 1, Nat.add_lt_of_lt_sub hrow, Nat.succ_pos _, Nat.mod_lt t hk, Nat.div_add_mod' t k⟩

/-! ### The number of clauses -/

private theorem length_firstRow (hk : 1 ≤ k) : (firstRow k x).length = k := by
  unfold firstRow
  rw [List.length_cons, List.length_map, List.length_range']
  omega

private theorem length_nextRow (hk : 1 ≤ k) : (nextRow k i x).length = 2 * k + 1 := by
  unfold nextRow
  simp only [List.length_append, List.length_cons, List.length_flatMap, List.length_nil, List.map_const',
    List.sum_replicate_nat, List.length_range']
  omega

private theorem length_laterRows (hk : 1 ≤ k) : (laterRows k i (x :: xs)).length = xs.length * (2 * k + 1) + 1 := by
  induction xs generalizing i x with
  | nil =>
    rw [laterRows, List.length_nil, Nat.zero_mul]
    rfl
  | cons y ys ih =>
    rw [laterRows, List.length_append, length_nextRow hk, ih, List.length_cons]
    · ring
    · simp

private theorem length_clauses (hk : 1 ≤ k) (hn : k < xs.length) :
    ((clauses k xs).length : Int) = 2 * xs.length * k + xs.length - 3 * k - 1 := by
  match xs, hn with
  | [x], hn => exact absurd hn (Nat.not_lt.2 hk)
  | x :: y :: ys, _ =>
    rw [clauses, List.length_append, length_firstRow hk, length_laterRows hk, List.length_cons, List.length_cons]
    push_cast
    ring

/-! ### The width of clauses -/

private theorem width_firstRow : ∀ c ∈ firstRow k x, c.length ≤ 3 := by
  unfold firstRow
  simp only [List.forall_mem_cons, List.forall_mem_map]
  exact ⟨by simp, fun j _ => by simp⟩

private theorem width_nextRow : ∀ c ∈ nextRow k i x, c.length ≤ 3 := by
  unfold nextRow
  simp only [List.forall_mem_append, List.forall_mem_cons, List.forall_mem_flatMap, List.length_cons, List.length_nil,
    List.not_mem_nil, false_implies, implies_true, and_true]
  simp

private theorem width_laterRows : ∀ c ∈ laterRows k i xs, c.length ≤ 3 := by
  induction xs generalizing i with
  | nil => simp [laterRows]
  | cons x xs ih =>
    cases xs with
    | nil => simp [laterRows]
    | cons y ys =>
      rw [laterRows, List.forall_mem_append]
      · exact ⟨width_nextRow, ih⟩
      · simp

private theorem width_clauses : ∀ c ∈ clauses k xs, c.length ≤ 3 := by
  cases xs with
  | nil => simp [clauses]
  | cons x xs =>
    rw [clauses, List.forall_mem_append]
    exact ⟨width_firstRow, width_laterRows⟩

/-! ### The use of the scope -/

private theorem exists_mem_clauses_register (hi : i + 1 < xs.length) (hj : 1 ≤ j) (hjk : j ≤ k) :
    ∃ c ∈ clauses k xs, ∃ l ∈ c, l.var = (register k i j).var := by
  cases i with
  | succ i =>
    -- each later row takes over the row before it, column by column
    exact ⟨_, mem_clauses hi (carry_mem_nextRow hj hjk _), register k (i + 1) j, by simp, rfl⟩
  | zero =>
    by_cases hj1 : j = 1
    · rw [hj1]
      exact ⟨_, one_mem_clauses hi, register k 0 1, by simp, rfl⟩
    · -- one literal cannot count for more than one
      match xs, hi with
      | x :: xs, _ =>
        have hmem : [(register k 0 j).negate] ∈ firstRow k x := by
          refine List.mem_cons_of_mem _ (List.mem_map.2 ⟨j, ?_, rfl⟩)
          rw [List.mem_range'_1]
          omega
        exact ⟨_, List.mem_append_left _ hmem, _, List.mem_singleton_self _, Literal.var_negate _⟩

/-- The registers of `n` literals up to `k` fill a scope, and the clauses use just them. -/
structure Fills (n k : Nat) (scope : Scope) (cs : List (List Literal)) : Prop where
  /-- The temporaries of the clauses are in the scope. -/
  inside : ∀ c ∈ cs, ∀ l ∈ c, ∀ t, l.var = .temp t → scope.get t = .ok (.temp t true)
  get {i j : Nat} : i + 1 < n → 1 ≤ j → j ≤ k → scope.get (i * k + (j - 1) : Nat) = .ok (register k i j)
  injective {i j i' j' : Nat} : i + 1 < n → 1 ≤ j → j ≤ k → i' + 1 < n → 1 ≤ j' → j' ≤ k →
    register k i j = register k i' j' → i = i' ∧ j = j'
  used {t : Nat} : t < scope.size → ∃ c ∈ cs, ∃ l ∈ c, l.var = .temp t

private theorem used_clauses {t : Nat} (ht : t < size xs.length k) :
    ∃ c ∈ clauses k xs, ∃ l ∈ c, l.var = .temp t := by
  obtain ⟨i, j, hi, hj, hjk, rfl⟩ := exists_register ht
  exact exists_mem_clauses_register hi hj hjk

private theorem fills_clauses {lits : List Literal} (hk : 1 ≤ k) (hn : k < lits.length) :
    Fills lits.length k ⟨size lits.length k⟩ (clauses k (lits.map Literal.lift)) where
  inside c hc l hl t ht := if_pos (temp_of_mem_clauses hk hn c hc l hl t ht)
  get := get_register
  injective _ hj hjk _ hj' hjk' := register_injective hj hjk hj' hjk'
  used ht := by
    rw [← List.length_map Literal.lift] at ht
    exact used_clauses ht

end Counter

/-! ### The clauses that are emitted -/

/-- A clause consists of the indices of the assumptions and at most `w` more literals. -/
def State.HasWidth (s : State Int) (w : Nat) (d : List Int) : Prop :=
  ∃ gs ls,
    List.Forall₂ (fun v i => ∃ g, Literal.ofValue v = .ok g ∧ s.varMap.signedIndex g = .ok i) s.assumptions gs ∧
    d = gs ++ ls ∧ ls.length ≤ w

private theorem State.hasWidth_of_enter {s inner : State Int} {base : Int} {n w : Nat} {c : List Literal}
    {d : List Int} (hi : s.enter base n = .ok inner) (hd : inner.signedClause c = .ok d) (hc : c.length ≤ w) :
    s.HasWidth w d := by
  obtain ⟨gs, hgs, rfl⟩ := enter_eq_ok.1 hi
  obtain ⟨is, ls, his, hls, rfl⟩ := signedClause_eq_ok.1 hd
  refine ⟨is, ls, ?_, rfl, hls.length_eq ▸ hc⟩
  rw [Literal.ofValues_eq_ok.1 hgs, List.forall₂_map_left_iff]
  rw [List.forall₂_map_left_iff] at his
  -- a lifted assumption has the index inside that it has outside
  refine his.imp fun g i ⟨h, hh, hindex⟩ => ⟨g, Literal.ofValue_toValue g, ?_⟩
  rw [Literal.ofValue_toValue] at hh
  cases hh
  exact hindex

namespace Encoder

/-- A temporary scope adds its clauses one by one and takes its indices. -/
private theorem withFresh_requireAll_eq_ok {I : Type} [Index I] {n : Nat} {cs : List (List Literal)} {s t : State I}
    (h : (withFresh n (requireAll cs)).runOn s = .ok () t) :
    ∃ inner ds, (s.takeFresh n).enter s.nextVar n = .ok inner ∧
      List.Forall₂ (fun c d => inner.signedClause c = .ok d) cs ds ∧ t.clauses = s.clauses ++ ds ∧
        t.nextVar = s.nextVar + n := by
  obtain ⟨inner, u, hi, hu, rfl⟩ := runOn_withFresh_eq_ok h
  obtain ⟨ds, hds, rfl⟩ := requireAll_eq_ok hu
  obtain ⟨gs, -, rfl⟩ := State.enter_eq_ok.1 hi
  exact ⟨_, ds, hi, hds, rfl, rfl⟩

end Encoder

/-- A clause over a temporary of a scope is emitted with the index of the temporary. -/
private theorem State.mem_or_neg_mem_of_temp {s inner : State Int} {base : Int} {n t : Nat} {c : List Literal}
    {d : List Int} {l : Literal} (hi : s.enter base n = .ok inner) (hd : inner.signedClause c = .ok d) (hl : l ∈ c)
    (hvar : l.var = .temp t) (ht : t < n) : base + t ∈ d ∨ -(base + t) ∈ d := by
  obtain ⟨gs, -, rfl⟩ := enter_eq_ok.1 hi
  obtain ⟨is, ls, -, hls, rfl⟩ := signedClause_eq_ok.1 hd
  obtain ⟨i, hmem, hindex⟩ := exists_mem_of_forall₂ hls.flip hl
  have htemp : (s.varMap.extend base n).index l.var = .ok (base + t) := by
    rw [hvar]
    exact if_pos ⟨Int.natCast_nonneg t, Int.ofNat_lt.2 ht⟩
  rw [VarMap.signedIndex_of_index htemp] at hindex
  cases hindex
  by_cases hp : l.positive
  · rw [if_pos hp] at hmem
    exact .inl (List.mem_append_right _ hmem)
  · rw [if_neg hp] at hmem
    exact .inr (List.mem_append_right _ hmem)

namespace Cardinality

open Encoder

variable {lits : List Literal} {k : Nat} {s t : State Int}

/-- What a bound of at most `k` emits, whatever is assumed. -/
private theorem atMost_emits (hk : 1 ≤ k) (hn : k < lits.length) (h : (encode (.atMost lits k)).runOn s = .ok () t) :
    t.nextVar = s.nextVar + ((lits.length - 1) * k : Nat) ∧ ∃ ds, t.clauses = s.clauses ++ ds ∧
      (ds.length : Int) = 2 * lits.length * k + lits.length - 3 * k - 1 ∧ (∀ d ∈ ds, s.HasWidth 3 d) ∧
        ∀ i, s.nextVar ≤ i → i < t.nextVar → ∃ d ∈ ds, i ∈ d ∨ -i ∈ d := by
  rw [encode_atMost hk hn] at h
  obtain ⟨inner, ds, hi, hds, hclauses, hnext⟩ := withFresh_requireAll_eq_ok h
  refine ⟨hnext, ds, hclauses, ?_, fun d hd => ?_, fun i hlo hhi => ?_⟩
  · rw [← hds.length_eq, Counter.length_clauses hk (by rwa [List.length_map]), List.length_map]
  · obtain ⟨c, hc, hcd⟩ := exists_mem_of_forall₂ hds hd
    have hwidth : (s.takeFresh (Counter.size lits.length k)).HasWidth 3 d :=
      State.hasWidth_of_enter hi hcd (Counter.width_clauses c hc)
    exact hwidth
  · obtain ⟨m, rfl⟩ : ∃ m : Nat, i = s.nextVar + m := ⟨(i - s.nextVar).toNat, by omega⟩
    have hm : m < Counter.size lits.length k := by omega
    obtain ⟨c, hc, l, hl, hvar⟩ := (Counter.fills_clauses hk hn).used hm
    obtain ⟨d, hd, hcd⟩ := exists_mem_of_forall₂ hds.flip hc
    exact ⟨d, hd, State.mem_or_neg_mem_of_temp hi hcd hl hvar hm⟩

/-- A bound of at most `k`, for `k` from 1 to below the number of literals, asks its scope for nothing but the
registers and fills it with them.  From any state, if it is encoded it takes `(n - 1) * k` indices, all of which occur
in what it emits, and emits `2 * n * k + n - 3 * k - 1` clauses, each of at most three literals besides the
assumptions; where the guards and literals are in scope of a sound state, it is encoded. -/
theorem atMost_registers (hk : 1 ≤ k) (hn : k < lits.length) :
    (Assembled.atMost (lits.map Literal.toValue) k : Except Error (Encoder Int Unit)) =
        .ok (encode (.atMost lits k)) ∧
      Counter.Fills lits.length k ⟨(lits.length - 1) * k⟩ (Counter.clauses k (lits.map Literal.lift)) ∧
      (∀ s t : State Int, (encode (.atMost lits k)).runOn s = .ok () t →
        t.nextVar = s.nextVar + ((lits.length - 1) * k : Nat) ∧ ∃ ds, t.clauses = s.clauses ++ ds ∧
          (ds.length : Int) = 2 * lits.length * k + lits.length - 3 * k - 1 ∧ (∀ d ∈ ds, s.HasWidth 3 d) ∧
            ∀ i, s.nextVar ≤ i → i < t.nextVar → ∃ d ∈ ds, i ∈ d ∨ -i ∈ d) ∧
      ∀ (s : State Int) (guards : List Literal), s.Ready guards (· ∈ lits.map Literal.var) →
        ∃ t, (encode (.atMost lits k)).runOn s = .ok () t := by
  refine ⟨?_, Counter.fills_clauses hk hn, fun s t h => atMost_emits hk hn h, fun s guards hs => ?_⟩
  · rw [Assembled.atMost_eq, Literal.ofValues_toValue]
    rfl
  · have hlits : ∀ l ∈ (atMost lits (k : Int)).literals, l.var ∈ lits.map Literal.var :=
      fun l hl => List.mem_map_of_mem hl
    obtain ⟨⟨⟩, t, ht, -⟩ := means hlits s guards hs
    exact ⟨t, ht⟩

/-- At most one of `a` and `b`, unless `g`: one register, in two clauses. -/
theorem atMost_registers_of_two_literals :
    let named : Table Int := ⟨[(.str "a", 1), (.str "b", 2), (.str "g", 3)], by decide⟩
    let g : Literal := .named (.str "g") true
    let lits : List Literal := [.named (.str "a") true, .named (.str "b") true]
    let s : State Int := { State.initial (.ofTable named) true true .empty with assumptions := [g.toValue] }
    1 ≤ 1 ∧ 1 < lits.length ∧ ∃ t ds, (encode (.atMost lits (1 : Nat))).runOn s = .ok () t ∧ t.nextVar = 5 ∧
      t.clauses = ds ∧ ds.length = 2 ∧ (∀ d ∈ ds, s.HasWidth 3 d) ∧ ∃ d ∈ ds, 4 ∈ d ∨ -4 ∈ d := by
  intro named g lits s
  have hk : 1 ≤ 1 := by decide
  have hn : 1 < lits.length := by decide
  have hready : s.Ready [g] (· ∈ lits.map Literal.var) := by
    refine ⟨(State.check_eq_ok_iff (by decide)).1 rfl, rfl, fun g' hg => ?_, fun v hv => ?_⟩
    · rw [List.mem_singleton.1 hg]
      exact ⟨3, rfl⟩
    · simp only [lits, List.map_cons, List.map_nil, List.mem_cons, List.not_mem_nil, or_false] at hv
      rcases hv with rfl | rfl
      · exact ⟨1, rfl⟩
      · exact ⟨2, rfl⟩
  obtain ⟨-, -, hemits, hruns⟩ := atMost_registers hk hn
  obtain ⟨t, ht⟩ := hruns s [g] hready
  obtain ⟨hnext, ds, hclauses, hlength, hwidth, hused⟩ := hemits s t ht
  have hnext : t.nextVar = 5 := hnext
  have hlength : (ds.length : Int) = 2 := hlength
  exact ⟨hk, hn, t, ds, ht, hnext, hclauses, by omega, hwidth, hused 4 (by decide) (by omega)⟩

end Cardinality

end Clausify
