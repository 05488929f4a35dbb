import Clausify.Proofs.Counting
import Clausify.Proofs.Emission
import Mathlib.Data.Nat.Nth

/-!
# Unit propagation in the sequential counter

Unit propagation derives the last literal of a clause whose others are false (`Cnf.Propagates`), and finds a conflict
where all literals of a clause are false (`Cnf.Conflict`).  In a formula with the clauses of a sequential counter
(`Cnf.Counts`) it derives the registers that say how many of the given literals come up to a position
(`Counts.register`), and from `k` given literals also the opposite of those that would say more
(`Counts.not_register`).  The two meet at each position that was not given, so its literal is refuted
(`Counts.refutes`), and `k + 1` given literals are in conflict (`Counts.conflict`).  The clauses of a bound above have
this form (`Cardinality.atMost_propagates`).
-/

namespace Clausify

namespace Cnf

/-- The literals that unit propagation derives from the given ones. -/
inductive Propagates (cs : List (List Int)) (given : Set Int) : Int → Prop where
  | given {l : Int} : l ∈ given → Propagates cs given l
  /-- All other literals of a clause are false. -/
  | unit {c : List Int} {l : Int} : c ∈ cs → l ∈ c → (∀ l' ∈ c, l' ≠ l → Propagates cs given (-l')) →
      Propagates cs given l

/-- Unit propagation makes all literals of a clause false. -/
def Conflict (cs : List (List Int)) (given : Set Int) : Prop := ∃ c ∈ cs, ∀ l ∈ c, Propagates cs given (-l)

/-- The formula has the clauses of a sequential counter up to `k` for the literals `x 0`, …, `x (n - 1)`, where the
register `r i j` says that at least `j` of the first `i + 1` literals hold. -/
structure Counts (cs : List (List Int)) (n k : Nat) (x : Nat → Int) (r : Nat → Nat → Int) : Prop where
  one {i : Nat} : i + 1 < n → [-x i, r i 1] ∈ cs
  carry {i j : Nat} : i + 2 < n → 1 ≤ j → j ≤ k → [-r i j, r (i + 1) j] ∈ cs
  more {i j : Nat} : i + 2 < n → 1 ≤ j → j < k → [-x (i + 1), -r i j, r (i + 1) (j + 1)] ∈ cs
  bound {i : Nat} : i + 1 < n → [-x (i + 1), -r i k] ∈ cs

variable {cs : List (List Int)} {given : Set Int}

/-- Each literal of a clause is the one to derive or false. -/
private theorem Propagates.last {c : List Int} {l : Int} (hc : c ∈ cs) (hl : l ∈ c)
    (h : ∀ l' ∈ c, l' = l ∨ Propagates cs given (-l')) : Propagates cs given l :=
  .unit hc hl fun l' hl' hne => (h l' hl').resolve_left hne

namespace Counts

variable {n k : Nat} {x : Nat → Int} {r : Nat → Nat → Int} {P : Finset Nat}

/-- The registers up to the number of given literals are derived, from the first row on. -/
theorem register (h : Counts cs n k x r) {i j : Nat} (hi : i + 1 < n) (hj : 1 ≤ j) (hjk : j ≤ k)
    (hcount : j ≤ Nat.count (· ∈ P) (i + 1)) : Propagates cs (x '' P) (r i j) := by
  have hgiven {q : Nat} (hq : q ∈ P) : Propagates cs (x '' P) (x q) := .given ⟨q, hq, rfl⟩
  have hone {i : Nat} (hi : i + 1 < n) (hq : i ∈ P) : Propagates cs (x '' P) (r i 1) :=
    .last (h.one hi) (by simp) (by simp [hgiven hq])
  induction i generalizing j with
  | zero =>
    rw [Nat.count_succ, Nat.count_zero] at hcount
    split at hcount
    · have hj1 : j = 1 := by omega
      rw [hj1]
      exact hone hi ‹0 ∈ P›
    · omega
  | succ i ih =>
    by_cases hle : j ≤ Nat.count (· ∈ P) (i + 1)
    · have hr := ih (by omega) hj hjk hle
      exact .last (h.carry hi hj hjk) (by simp) (by simp [hr])
    · rw [Nat.count_succ] at hcount
      split at hcount
      · rename_i hq
        by_cases hj1 : j = 1
        · rw [hj1]
          exact hone hi hq
        · obtain ⟨j, rfl⟩ : ∃ m, j = m + 1 := ⟨j - 1, by omega⟩
          have hr := ih (j := j) (by omega) (by omega) (by omega) (by omega)
          exact .last (h.more (j := j) hi (by omega) (by omega)) (by simp) (by simp [hgiven hq, hr])
      · omega

/-- From `k` given literals, the registers above their number are refuted, from the last row on. -/
theorem not_register (h : Counts cs n k x r) (hP : Nat.count (· ∈ P) n = k) {i j : Nat} (hi : i + 1 < n) (hj : 1 ≤ j)
    (hjk : j ≤ k) (hcount : Nat.count (· ∈ P) (i + 1) < j) : Propagates cs (x '' P) (-r i j) := by
  have hgiven {q : Nat} (hq : q ∈ P) : Propagates cs (x '' P) (x q) := .given ⟨q, hq, rfl⟩
  have hbound {i : Nat} (hi : i + 1 < n) (hq : i + 1 ∈ P) : Propagates cs (x '' P) (-r i k) :=
    .last (h.bound hi) (by simp) (by simp [hgiven hq])
  obtain ⟨m, hm⟩ : ∃ m, i + 2 + m = n := ⟨n - (i + 2), by omega⟩
  induction m generalizing i j with
  | zero =>
    -- in the last row, the literal behind it is the last one that was given
    rw [← hm, Nat.add_zero, Nat.count_succ] at hP
    split at hP
    · have hj' : j = k := by omega
      rw [hj']
      exact hbound hi ‹i + 1 ∈ P›
    · omega
  | succ m ih =>
    have hnext := Nat.count_succ (· ∈ P) (i + 1)
    split at hnext
    · rename_i hq
      by_cases hj' : j = k
      · rw [hj']
        exact hbound hi hq
      · have hr := ih (i := i + 1) (j := j + 1) (by omega) (by omega) (by omega) (by omega) (by omega)
        exact .last (h.more (i := i) (by omega) hj (by omega)) (by simp) (by simp [hgiven hq, hr])
    · have hr := ih (i := i + 1) (by omega) hj hjk (by omega) (by omega)
      exact .last (h.carry (i := i) (by omega) hj hjk) (by simp) (by simp [hr])

/-- From `k` given literals, each other literal is refuted. -/
theorem refutes (h : Counts cs n k x r) (hk : 1 ≤ k) (hP : Nat.count (· ∈ P) n = k) {q : Nat} (hq : q < n)
    (hqP : q ∉ P) : Propagates cs (x '' P) (-x q) := by
  have hnext : Nat.count (· ∈ P) (q + 1) = Nat.count (· ∈ P) q := by rw [Nat.count_succ, if_neg hqP, Nat.add_zero]
  have hle : Nat.count (· ∈ P) (q + 1) ≤ k := hP ▸ Nat.count_monotone _ hq
  by_cases hall : Nat.count (· ∈ P) q = k
  · -- all given literals come before it
    cases q with
    | zero =>
      rw [Nat.count_zero] at hall
      omega
    | succ i =>
      have hr := h.register (P := P) (i := i) hq hk (Nat.le_refl k) (by omega)
      exact .last (h.bound hq) (by simp) (by simp [hr])
  · have hlast : q + 1 < n := by
      by_contra hlast
      have e : q + 1 = n := by omega
      rw [e] at hnext
      omega
    have hr := h.not_register hP hlast (j := Nat.count (· ∈ P) q + 1) (by omega) (by omega) (by omega)
    by_cases hzero : Nat.count (· ∈ P) q = 0
    · rw [hzero] at hr
      exact .last (h.one hlast) (by simp) (by simp [hr])
    · cases q with
      | zero => exact absurd (Nat.count_zero _) hzero
      | succ i =>
        have hr' := h.register (P := P) (i := i) hq (j := Nat.count (· ∈ P) (i + 1)) (by omega) (by omega)
          (Nat.le_refl _)
        exact .last (h.more (j := Nat.count (· ∈ P) (i + 1)) hlast (by omega) (by omega)) (by simp)
          (by simp [hr, hr'])

/-- One literal more than the bound is a conflict, at the last of them. -/
theorem conflict (h : Counts cs n k x r) (hk : 1 ≤ k) (hP : Nat.count (· ∈ P) n = k + 1) :
    Conflict cs (x '' P) := by
  have hlt : k < Nat.count (· ∈ P) n := by omega
  have hmem (hf : (Set.ofPred (· ∈ P)).Finite) : k < hf.toFinset.card := hlt.trans_le (Nat.count_le_card hf n)
  have hq := Nat.nth_mem k hmem
  have hcount := Nat.count_nth hmem
  have hqn := Nat.nth_lt_of_lt_count hlt
  generalize Nat.nth (· ∈ P) k = q at hq hcount hqn
  cases q with
  | zero =>
    rw [Nat.count_zero] at hcount
    omega
  | succ i =>
    have hx : Propagates cs (x '' P) (x (i + 1)) := .given ⟨i + 1, hq, rfl⟩
    have hr := h.register (P := P) (i := i) hqn hk (Nat.le_refl k) (by omega)
    exact ⟨_, h.bound hqn, by simp [hx, hr]⟩

end Counts

end Cnf

/-! ### The clauses of the counter -/

namespace Counter

variable {k i t : Nat} {xs : List Literal} {c : List Literal}

/-- The row of the literal at a position that is not the last. -/
private theorem mem_laterRows (ht : t + 1 < xs.length) (hc : c ∈ nextRow k (i + t) xs[t]) : c ∈ laterRows k i xs := by
  induction t generalizing i xs with
  | zero =>
    match xs, ht with
    | x :: y :: ys, _ => exact List.mem_append_left _ hc
  | succ t ih =>
    match xs, ht with
    | x :: y :: ys, ht =>
      rw [← Nat.add_assoc, Nat.add_right_comm] at hc
      exact List.mem_append_right _ (ih (Nat.lt_of_succ_lt_succ ht) hc)

theorem carry_mem_nextRow {j : Nat} (hj : 1 ≤ j) (hjk : j ≤ k) (x : Literal) :
    [(register k i j).negate, register k (i + 1) j] ∈ nextRow k i x := by
  by_cases hj1 : j = 1
  · rw [hj1]
    exact List.mem_cons_of_mem _ (List.mem_cons_self ..)
  · refine List.mem_cons_of_mem _ (List.mem_cons_of_mem _ (List.mem_append_left _ (List.mem_flatMap.2 ⟨j, ?_, ?_⟩)))
    · rw [List.mem_range'_1]
      omega
    · exact List.mem_cons_of_mem _ (List.mem_singleton_self _)

private theorem more_mem_nextRow {j : Nat} (hj : 1 ≤ j) (hjk : j < k) (x : Literal) :
    [x.negate, (register k i j).negate, register k (i + 1) (j + 1)] ∈ nextRow k i x := by
  refine List.mem_cons_of_mem _ (List.mem_cons_of_mem _ (List.mem_append_left _
    (List.mem_flatMap.2 ⟨j + 1, ?_, List.mem_cons_self ..⟩)))
  rw [List.mem_range'_1]
  omega

private theorem bound_mem_nextRow (k i : Nat) (x : Literal) :
    [x.negate, (register k i k).negate] ∈ nextRow k i x :=
  List.mem_append_right _ (List.mem_singleton_self _)

private theorem bound_mem_laterRows (ht : t < xs.length) :
    [xs[t].negate, (register k (i + t) k).negate] ∈ laterRows k i xs := by
  induction t generalizing i xs with
  | zero =>
    match xs, ht with
    | [x], _ => exact List.mem_singleton_self _
    | x :: y :: ys, _ => exact List.mem_append_left _ (bound_mem_nextRow k i x)
  | succ t ih =>
    match xs, ht with
    | x :: y :: ys, ht =>
      have ht : t < (y :: ys).length := Nat.lt_of_succ_lt_succ ht
      have h := ih (i := i + 1) ht
      rw [Nat.add_right_comm, Nat.add_assoc] at h
      exact List.mem_append_right _ h

/-- The clauses for a row of registers and the literal behind it. -/
theorem mem_clauses (hi : i + 2 < xs.length) (hc : c ∈ nextRow k i xs[i + 1]) : c ∈ clauses k xs := by
  match xs, hi with
  | x :: xs, hi =>
    refine List.mem_append_right _ (mem_laterRows (Nat.lt_of_succ_lt_succ hi) ?_)
    rw [Nat.zero_add]
    exact hc

theorem one_mem_clauses (hi : i + 1 < xs.length) : [xs[i].negate, register k i 1] ∈ clauses k xs := by
  cases i with
  | zero =>
    match xs, hi with
    | x :: xs, _ => exact List.mem_cons_self ..
  | succ i => exact mem_clauses hi (List.mem_cons_self ..)

private theorem bound_mem_clauses (hi : i + 1 < xs.length) :
    [xs[i + 1].negate, (register k i k).negate] ∈ clauses k xs := by
  match xs, hi with
  | x :: xs, hi =>
    have h := bound_mem_laterRows (k := k) (i := 0) (Nat.lt_of_succ_lt_succ hi)
    rw [Nat.zero_add] at h
    exact List.mem_append_right _ h

private theorem getD_map_signed (m : VarMap Int) (hi : i < xs.length) :
    (xs.map m.signed).getD i 0 = m.signed xs[i] := by
  simp [List.getD, hi]

/-- The clauses of the counter, as they are added, are those of a counter for the indices of the literals. -/
private theorem counts_signed (m : VarMap Int) (xs : List Literal) :
    Cnf.Counts ((clauses k xs).map (List.map m.signed)) xs.length k (fun i => (xs.map m.signed).getD i 0)
      fun i j => m.signed (register k i j) := by
  have hmem {c : List Literal} (hc : c ∈ clauses k xs) :
      c.map m.signed ∈ (clauses k xs).map (List.map m.signed) := List.mem_map_of_mem hc
  constructor
  · intro i hi
    rw [getD_map_signed m (by omega)]
    simpa [VarMap.signed_negate] using hmem (one_mem_clauses hi)
  · intro i j hi hj hjk
    simpa [VarMap.signed_negate] using hmem (mem_clauses hi (carry_mem_nextRow hj hjk _))
  · intro i j hi hj hjk
    rw [getD_map_signed m (by omega)]
    simpa [VarMap.signed_negate] using hmem (mem_clauses hi (more_mem_nextRow hj hjk _))
  · intro i hi
    rw [getD_map_signed m hi]
    simpa [VarMap.signed_negate] using hmem (bound_mem_clauses hi)

/-- Each literal occurs in a clause, negated. -/
private theorem exists_mem_clauses (hi : i < xs.length) : ∃ c ∈ clauses k xs, xs[i].negate ∈ c := by
  cases i with
  | zero =>
    match xs, hi with
    | x :: xs, _ => exact ⟨_, List.mem_cons_self .., List.mem_cons_self ..⟩
  | succ i => exact ⟨_, bound_mem_clauses hi, List.mem_cons_self ..⟩

end Counter

/-! ### Bounds above -/

namespace Cardinality

open Encoder

variable {s t : State Int} {lits : List Literal} {k : Nat}

theorem encode_atMost (hk : 1 ≤ k) (hn : k < lits.length) :
    encode (I := Int) (.atMost lits k) = withFresh (Counter.size lits.length k)
      (requireAll (Counter.clauses k (lits.map Literal.lift))) := by
  show encodeAtMost lits k = _
  unfold encodeAtMost
  rw [if_neg (by omega), if_neg (by omega), if_neg (by omega)]
  rfl

/-- In a sound state with the literals in scope, a bound above succeeds.  What it adds without assumptions is complete
for unit propagation: from the literals at any `k` positions the literals at all other positions are refuted, and the
literals at any `k + 1` positions are in conflict. -/
theorem atMost_propagates (hs : s.assumptions = []) (hk : 1 ≤ k) (hn : k < lits.length) :
    (s.Sound → (∀ l ∈ lits, ∃ i, s.varMap.index l.var = .ok i) →
      ∃ t, (encode (.atMost lits k)).runOn s = .ok () t) ∧
    ∀ t, (encode (.atMost lits k)).runOn s = .ok () t →
      ∃ (cs : List (List Int)) (x : Nat → Int), t.clauses = s.clauses ++ cs ∧
        (∀ (i : Nat) (h : i < lits.length), s.varMap.signedIndex lits[i] = .ok (x i)) ∧
        ∀ P ⊆ Finset.range lits.length,
          (P.card = k → ∀ q < lits.length, q ∉ P → Cnf.Propagates cs (x '' P) (-x q)) ∧
          (P.card = k + 1 → Cnf.Conflict cs (x '' P)) := by
  refine ⟨fun hsound hlits => ?_, fun t ht => ?_⟩
  · let known : Value → Prop := fun v => ∃ i, s.varMap.index v = .ok i
    have hknown : ∀ l ∈ (Cardinality.atMost lits (k : Int)).literals, known l.var := hlits
    obtain ⟨⟨⟩, t, ht, -⟩ := means hknown s [] ⟨hsound, hs, fun g hg => (List.not_mem_nil hg).elim, fun v hv => hv⟩
    exact ⟨t, ht⟩
  · rw [encode_atMost hk hn] at ht
    obtain ⟨hclauses, hindexed⟩ := withFresh_requireAll_eq_map hs ht
    have hcounts := Counter.counts_signed (s.varMap.extend s.nextVar (Counter.size lits.length k))
      (lits.map Literal.lift) (k := k)
    have hlift : (lits.map Literal.lift).map (s.varMap.extend s.nextVar (Counter.size lits.length k)).signed =
        lits.map s.varMap.signed := List.map_map
    rw [hlift, List.length_map] at hcounts
    refine ⟨_, fun i => (lits.map s.varMap.signed).getD i 0, hclauses, fun i hi => ?_, fun P hP => ?_⟩
    · have hi' : i < (lits.map Literal.lift).length := by rwa [List.length_map]
      obtain ⟨c, hc, hmem⟩ := Counter.exists_mem_clauses (k := k) hi'
      have hindex := VarMap.signedIndex_of_negate (hindexed c hc _ hmem)
      rw [List.getElem_map] at hindex
      exact hindex.trans (congrArg Except.ok (Counter.getD_map_signed s.varMap hi).symm)
    · have hcard : Nat.count (· ∈ P) lits.length = P.card := by
        rw [Nat.count_eq_card_filter_range, Finset.filter_mem_eq_inter, Finset.inter_eq_right.2 hP]
      exact ⟨fun h q hq hqP => hcounts.refutes hk (hcard.trans h) hq hqP,
        fun h => hcounts.conflict hk (hcard.trans h)⟩

/-- At most two of `a`, the negation of `b` and `c`: the first two refute the third, and all three are in conflict. -/
theorem atMost_propagates_of_three_literals :
    let named : Table Int := ⟨[(.str "a", 1), (.str "b", 2), (.str "c", 3)], by decide⟩
    let s : State Int := .initial (.ofTable named) true true .empty
    let lits : List Literal := [.named (.str "a") true, .named (.str "b") false, .named (.str "c") true]
    s.assumptions = [] ∧ 1 ≤ 2 ∧ 2 < lits.length ∧ ∃ t, (encode (.atMost lits 2)).runOn s = .ok () t ∧
      t.clauses = [[-1, 4], [-5], [2, 6], [-4, 6], [2, -4, 7], [-5, 7], [2, -5], [-3, -7]] ∧
      Cnf.Propagates t.clauses {1, -2} (-3) ∧ Cnf.Conflict t.clauses {1, -2, 3} := by
  intro named s lits
  have hs : s.assumptions = [] := rfl
  have hk : 1 ≤ 2 := by decide
  have hn : 2 < lits.length := by decide
  have hsound : s.Sound := (State.check_eq_ok_iff (by decide)).1 rfl
  have hlits : ∀ l ∈ lits, ∃ i, s.varMap.index l.var = .ok i := by
    simp only [lits, List.forall_mem_cons]
    exact ⟨⟨1, rfl⟩, ⟨2, rfl⟩, ⟨3, rfl⟩, fun l hl => absurd hl List.not_mem_nil⟩
  obtain ⟨t, ht⟩ := (atMost_propagates hs hk hn).1 hsound hlits
  have hclauses : t.clauses = [[-1, 4], [-5], [2, 6], [-4, 6], [2, -4, 7], [-5, 7], [2, -5], [-3, -7]] := by
    rw [← after_of_ok ht]
    decide +kernel
  obtain ⟨cs, x, hcs, hx, hP⟩ := (atMost_propagates hs hk hn).2 t ht
  have hcs : t.clauses = cs := hcs
  have h0 : 1 = x 0 := Except.ok.inj (hx 0 (by decide))
  have h1 : -2 = x 1 := Except.ok.inj (hx 1 (by decide))
  have h2 : 3 = x 2 := Except.ok.inj (hx 2 (by decide))
  have hfirst := (hP {0, 1} (by decide)).1 rfl 2 (by decide) (by decide)
  have hall := (hP {0, 1, 2} (by decide)).2 rfl
  simp only [Finset.coe_insert, Finset.coe_singleton, Set.image_insert_eq, Set.image_singleton, ← h0, ← h1, ← h2]
    at hfirst hall
  exact ⟨hs, hk, hn, t, ht, hclauses, hcs ▸ hfirst, hcs ▸ hall⟩

end Cardinality

end Clausify
