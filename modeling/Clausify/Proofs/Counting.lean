import Clausify.Cardinality
import Clausify.Proofs.Meaning

/-!
# The meaning of bounds

The clauses of the sequential counter can be satisfied by values of its registers exactly if at most `k` of the
literals hold (`Counter.exists_registers_iff`): true registers count at least the literals that hold so far, and the
registers that count them exactly satisfy the clauses.  Hence the encoders of cardinality constraints mean what the
constraints say (`Cardinality.means`): at any depth of scopes and under any guards, the clauses they add can be
satisfied exactly where a guard or the constraint holds (`Cardinality.encode_counts`).
-/

namespace Clausify

/-- How many of the literals hold, counted by position. -/
def count (ρ : Env) (lits : List Literal) : Nat := lits.countP fun l => l.Holds ρ

private theorem count_cons {ρ : Env} {l : Literal} {lits : List Literal} :
    count ρ (l :: lits) = count ρ [l] + count ρ lits := by
  unfold count
  rw [← List.singleton_append, List.countP_append]

private theorem count_singleton {ρ : Env} {l : Literal} : count ρ [l] = if l.Holds ρ then 1 else 0 := by
  unfold count
  rw [List.countP_singleton]
  simp

private theorem count_lift {n : Nat} {ρ : Env} {b : Fin n → Bool} (lits : List Literal) :
    count (ρ.inside b) (lits.map Literal.lift) = count ρ lits := by
  unfold count
  rw [List.countP_map]
  rfl

namespace Counter

variable {k i : Nat} {ρ : Env}

/-- The register for at least `j` of the first `i + 1` literals is true. -/
def Reg (ρ : Env) (k i j : Nat) : Prop := (register k i j).Holds ρ

private theorem clause_not {a : Literal} : (∃ l ∈ [a.negate], l.Holds ρ) ↔ ¬a.Holds ρ := by
  simp [Literal.holds_negate]

private theorem clause_imp {a b : Literal} : (∃ l ∈ [a.negate, b], l.Holds ρ) ↔ (a.Holds ρ → b.Holds ρ) := by
  simp [Literal.holds_negate, imp_iff_not_or]

private theorem clause_imp_not {a b : Literal} :
    (∃ l ∈ [a.negate, b.negate], l.Holds ρ) ↔ (a.Holds ρ → ¬b.Holds ρ) := by
  rw [clause_imp, Literal.holds_negate]

private theorem clause_imp_imp {a b c : Literal} :
    (∃ l ∈ [a.negate, b.negate, c], l.Holds ρ) ↔ (a.Holds ρ → b.Holds ρ → c.Holds ρ) := by
  simp [Literal.holds_negate, imp_iff_not_or]

private theorem satisfies_firstRow {x : Literal} :
    ρ.Satisfies (firstRow k x) ↔
      (x.Holds ρ → Reg ρ k 0 1) ∧ ∀ j, 2 ≤ j → j < 2 + (k - 1) → ¬Reg ρ k 0 j := by
  unfold firstRow Reg
  rw [Env.satisfies_cons, clause_imp]
  unfold Env.Satisfies
  simp only [List.forall_mem_map, List.mem_range'_1, clause_not, and_imp]

private theorem satisfies_nextRow {x : Literal} :
    ρ.Satisfies (nextRow k i x) ↔
      (x.Holds ρ → Reg ρ k (i + 1) 1) ∧ (Reg ρ k i 1 → Reg ρ k (i + 1) 1) ∧
        (∀ j, 2 ≤ j → j < 2 + (k - 1) →
          (x.Holds ρ → Reg ρ k i (j - 1) → Reg ρ k (i + 1) j) ∧ (Reg ρ k i j → Reg ρ k (i + 1) j)) ∧
        (x.Holds ρ → ¬Reg ρ k i k) := by
  unfold nextRow Reg
  rw [List.cons_append, List.cons_append, Env.satisfies_cons, Env.satisfies_cons, Env.satisfies_append, clause_imp,
    clause_imp, Env.satisfies_cons, clause_imp_not]
  refine and_congr_right fun _ => and_congr_right fun _ => and_congr ?_ (and_iff_left Env.satisfies_nil)
  unfold Env.Satisfies
  rw [List.forall_mem_flatMap]
  simp only [List.mem_range'_1, List.forall_mem_cons, clause_imp, clause_imp_imp, List.not_mem_nil, false_implies,
    implies_true, and_true, and_imp]

/-- Registers that count at least `c` before the literals allow at most `k - c` of them. -/
private theorem count_le_of_laterRows (hk : 1 ≤ k) {xs : List Literal} {c : Nat} (h : ρ.Satisfies (laterRows k i xs))
    (hc : c ≤ k) (hreg : ∀ j, 1 ≤ j → j ≤ c → Reg ρ k i j) : c + count ρ xs ≤ k := by
  induction xs generalizing i c with
  | nil => exact hc
  | cons x xs ih =>
    have hlast (hx : x.Holds ρ → ¬Reg ρ k i k) : c + count ρ [x] ≤ k := by
      rw [count_singleton]
      by_cases hh : x.Holds ρ
      · have hne : c ≠ k := by
          rintro rfl
          exact hx hh (hreg c hk (Nat.le_refl c))
        rw [if_pos hh]
        omega
      · rw [if_neg hh]
        exact hc
    cases xs with
    | nil =>
      rw [laterRows, Env.satisfies_cons, clause_imp_not] at h
      exact hlast h.1
    | cons y ys =>
      rw [laterRows, Env.satisfies_append, satisfies_nextRow] at h
      · obtain ⟨⟨hone, hcarry, hstep, hx⟩, hrest⟩ := h
        have hle := hlast hx
        rw [count_cons, ← Nat.add_assoc]
        refine ih hrest hle fun j hj hjc => ?_
        rw [count_singleton] at hle hjc
        -- a register is set by the literal and the register before it, or else carried over from the row before
        by_cases hh : x.Holds ρ
        · rw [if_pos hh] at hle hjc
          by_cases hj1 : j = 1
          · rw [hj1]
            exact hone hh
          · exact (hstep j (by omega) (by omega)).1 hh (hreg (j - 1) (by omega) (by omega))
        · rw [if_neg hh] at hjc
          by_cases hj1 : j = 1
          · rw [hj1]
            exact hcarry (hreg 1 (Nat.le_refl 1) (by omega))
          · exact (hstep j (by omega) (by omega)).2 (hreg j hj (by omega))
      · simp

/-- Registers that count exactly satisfy the clauses if no more than `k` literals hold. -/
private theorem satisfies_laterRows (hk : 1 ≤ k) {xs : List Literal} {c : Nat} (hle : c + count ρ xs ≤ k)
    (hreg : ∀ t, t < xs.length → ∀ j, 1 ≤ j → j ≤ k → (Reg ρ k (i + t) j ↔ j ≤ c + count ρ (xs.take t))) :
    ρ.Satisfies (laterRows k i xs) := by
  induction xs generalizing i c with
  | nil => exact Env.satisfies_nil
  | cons x xs ih =>
    have hrow (j : Nat) (hj : 1 ≤ j) (hjk : j ≤ k) : Reg ρ k i j ↔ j ≤ c :=
      hreg 0 (Nat.succ_pos _) j hj hjk
    have hlast (hh : x.Holds ρ) : ¬Reg ρ k i k := by
      rw [hrow k hk (Nat.le_refl k)]
      rw [count_cons, count_singleton, if_pos hh] at hle
      omega
    cases xs with
    | nil =>
      rw [laterRows, Env.satisfies_cons, clause_imp_not]
      exact ⟨hlast, Env.satisfies_nil⟩
    | cons y ys =>
      have hnext (j : Nat) (hj : 1 ≤ j) (hjk : j ≤ k) : Reg ρ k (i + 1) j ↔ j ≤ c + count ρ [x] :=
        hreg 1 (by simp) j hj hjk
      rw [laterRows, Env.satisfies_append, satisfies_nextRow]
      · refine ⟨⟨fun hh => ?_, fun h => ?_, fun j hj hjk => ⟨fun hh h => ?_, fun h => ?_⟩, hlast⟩, ?_⟩
        · rw [hnext 1 (Nat.le_refl 1) hk, count_singleton, if_pos hh]
          omega
        · rw [hrow 1 (Nat.le_refl 1) hk] at h
          rw [hnext 1 (Nat.le_refl 1) hk]
          omega
        · rw [hrow (j - 1) (by omega) (by omega)] at h
          rw [hnext j (by omega) (by omega), count_singleton, if_pos hh]
          omega
        · rw [hrow j (by omega) (by omega)] at h
          rw [hnext j (by omega) (by omega)]
          omega
        · rw [count_cons, ← Nat.add_assoc] at hle
          refine ih hle fun t ht j hj hjk => ?_
          have h := hreg (t + 1) (Nat.succ_lt_succ ht) j hj hjk
          rw [List.take_succ_cons, count_cons, ← Nat.add_assoc, ← Nat.add_assoc, Nat.add_right_comm i t 1] at h
          exact h
      · simp

/-- The number of a register is below the size. -/
theorem register_lt {n j : Nat} (hi : i + 1 < n) (hj : 1 ≤ j) (hjk : j ≤ k) : i * k + (j - 1) < size n k := by
  have h : (i + 1) * k ≤ (n - 1) * k := Nat.mul_le_mul_right k (by omega)
  rw [Nat.succ_mul] at h
  unfold size
  omega

/-- The number of a register determines its row. -/
theorem register_div {j : Nat} (hj : 1 ≤ j) (hjk : j ≤ k) : (i * k + (j - 1)) / k = i := by
  rw [Nat.mul_comm, Nat.mul_add_div (by omega), Nat.div_eq_of_lt (by omega), Nat.add_zero]

/-- The number of a register determines its column. -/
theorem register_mod {j : Nat} (hj : 1 ≤ j) (hjk : j ≤ k) : (i * k + (j - 1)) % k = j - 1 := by
  rw [Nat.mul_comm, Nat.mul_add_mod, Nat.mod_eq_of_lt (by omega)]

/-- Values of the registers that count the literals exactly. -/
private def exactRegisters (ρ : Env) (k : Nat) (lits : List Literal) : Fin (size lits.length k) → Bool := fun t =>
  decide (t % k + 1 ≤ count ρ (lits.take (t / k + 1)))

private theorem reg_exactRegisters {lits : List Literal} {j : Nat} (hi : i + 1 < lits.length) (hj : 1 ≤ j)
    (hjk : j ≤ k) : Reg (ρ.inside (exactRegisters ρ k lits)) k i j ↔ j ≤ count ρ (lits.take (i + 1)) := by
  unfold Reg register
  rw [Literal.holds_temp (register_lt hi hj hjk)]
  unfold exactRegisters
  rw [decide_eq_true_iff]
  dsimp only
  rw [register_div hj hjk, register_mod hj hjk, Nat.sub_add_cancel hj]

private theorem count_le_of_clauses {n : Nat} {b : Fin n → Bool} {lits : List Literal} (hk : 1 ≤ k)
    (h : (ρ.inside b).Satisfies (clauses k (lits.map Literal.lift))) : count ρ lits ≤ k := by
  cases lits with
  | nil => exact Nat.zero_le k
  | cons x xs =>
    rw [List.map_cons, clauses, Env.satisfies_append, satisfies_firstRow] at h
    obtain ⟨⟨hone, -⟩, hrest⟩ := h
    rw [← count_lift (b := b), List.map_cons, count_cons]
    refine count_le_of_laterRows hk hrest ?_ fun j hj hjc => ?_
    · rw [count_singleton]
      split <;> omega
    · rw [count_singleton] at hjc
      split at hjc
      · rename_i hh
        have hj1 : j = 1 := by omega
        rw [hj1]
        exact hone hh
      · omega

private theorem satisfies_exactRegisters {lits : List Literal} (hk : 1 ≤ k) (hn : k < lits.length)
    (hle : count ρ lits ≤ k) :
    (ρ.inside (exactRegisters ρ k lits)).Satisfies (clauses k (lits.map Literal.lift)) := by
  cases lits with
  | nil => cases hn
  | cons x xs =>
    rw [List.length_cons] at hn
    have hfirst (j : Nat) (hj : 1 ≤ j) (hjk : j ≤ k) :
        Reg (ρ.inside (exactRegisters ρ k (x :: xs))) k 0 j ↔ j ≤ count ρ [x] :=
      reg_exactRegisters (Nat.succ_lt_succ (by omega)) hj hjk
    rw [List.map_cons, clauses, Env.satisfies_append, satisfies_firstRow]
    refine ⟨⟨fun hh => ?_, fun j hj hjk => ?_⟩, satisfies_laterRows (c := count ρ [x]) hk ?_ fun t ht j hj hjk => ?_⟩
    · have hh : x.Holds ρ := hh
      have hone : count ρ [x] = 1 := by rw [count_singleton, if_pos hh]
      exact (hfirst 1 (Nat.le_refl 1) hk).2 (by omega)
    · rw [hfirst j (by omega) (by omega), count_singleton]
      split <;> omega
    · rw [count_lift, ← count_cons]
      exact hle
    · rw [List.length_map] at ht
      rw [Nat.zero_add, ← List.map_take, count_lift, ← count_cons, reg_exactRegisters (Nat.succ_lt_succ ht) hj hjk,
        List.take_succ_cons]

/-- Some values of the registers satisfy the clauses of the counter exactly if at most `k` literals hold. -/
theorem exists_registers_iff {lits : List Literal} (hk : 1 ≤ k) (hn : k < lits.length) (ρ : Env) :
    (∃ b : Fin (size lits.length k) → Bool, (ρ.inside b).Satisfies (clauses k (lits.map Literal.lift))) ↔
      count ρ lits ≤ k := by
  constructor
  · rintro ⟨b, h⟩
    exact count_le_of_clauses hk h
  · intro hle
    exact ⟨exactRegisters ρ k lits, satisfies_exactRegisters hk hn hle⟩

/-! ### Variables of the counter -/

variable {p : Value → Prop}

private theorem var_firstRow (hk : 1 ≤ k) {x : Literal} (hx : p x.var)
    (hreg : ∀ j, 1 ≤ j → j ≤ k → p (register k 0 j).var) : ∀ c ∈ firstRow k x, ∀ l ∈ c, p l.var := by
  unfold firstRow
  simp only [List.forall_mem_cons, List.forall_mem_map, List.mem_range'_1, Literal.var_negate, List.not_mem_nil,
    false_implies, implies_true, and_true]
  exact ⟨⟨hx, hreg 1 (Nat.le_refl 1) hk⟩, fun j hj => hreg j (by omega) (by omega)⟩

private theorem var_nextRow (hk : 1 ≤ k) {x : Literal} (hx : p x.var)
    (hreg : ∀ t, t ≤ 1 → ∀ j, 1 ≤ j → j ≤ k → p (register k (i + t) j).var) :
    ∀ c ∈ nextRow k i x, ∀ l ∈ c, p l.var := by
  have hrow := hreg 0 (by omega)
  have hnext := hreg 1 (by omega)
  unfold nextRow
  simp only [List.cons_append, List.forall_mem_cons, List.forall_mem_append, List.forall_mem_flatMap,
    List.mem_range'_1, Literal.var_negate, List.not_mem_nil, false_implies, implies_true, and_true]
  refine ⟨⟨hx, hnext 1 (by omega) hk⟩, ⟨hrow 1 (by omega) hk, hnext 1 (by omega) hk⟩, fun j hj => ?_, hx,
    hrow k hk (Nat.le_refl k)⟩
  exact ⟨⟨hx, hrow (j - 1) (by omega) (by omega), hnext j (by omega) (by omega)⟩, hrow j (by omega) (by omega),
    hnext j (by omega) (by omega)⟩

private theorem var_laterRows (hk : 1 ≤ k) {xs : List Literal} (hxs : ∀ x ∈ xs, p x.var)
    (hreg : ∀ t, t < xs.length → ∀ j, 1 ≤ j → j ≤ k → p (register k (i + t) j).var) :
    ∀ c ∈ laterRows k i xs, ∀ l ∈ c, p l.var := by
  induction xs generalizing i with
  | nil =>
    intro c hc
    cases hc
  | cons x xs ih =>
    have hx := hxs x (List.mem_cons_self ..)
    cases xs with
    | nil =>
      rw [laterRows]
      simp only [List.forall_mem_cons, Literal.var_negate, List.not_mem_nil, false_implies, implies_true, and_true]
      exact ⟨hx, hreg 0 (by simp) k hk (Nat.le_refl k)⟩
    | cons y ys =>
      rw [laterRows, List.forall_mem_append]
      · refine ⟨var_nextRow hk hx fun t ht => hreg t (by simp; omega), ?_⟩
        refine ih (List.forall_mem_cons.1 hxs).2 fun t ht j => ?_
        have h := hreg (t + 1) (Nat.succ_lt_succ ht) j
        rw [← Nat.add_assoc, Nat.add_right_comm] at h
        exact h
      · simp

private theorem var_clauses (hk : 1 ≤ k) {xs : List Literal} (hn : 2 ≤ xs.length) (hxs : ∀ x ∈ xs, p x.var)
    (htemp : ∀ t : Nat, t < size xs.length k → p (.temp t)) : ∀ c ∈ clauses k xs, ∀ l ∈ c, p l.var := by
  have hreg (i j : Nat) (hi : i + 1 < xs.length) (hj : 1 ≤ j) (hjk : j ≤ k) : p (register k i j).var :=
    htemp _ (register_lt hi hj hjk)
  cases xs with
  | nil => cases hn
  | cons x xs =>
    obtain ⟨hx, hxs⟩ := List.forall_mem_cons.1 hxs
    rw [List.length_cons] at hn hreg
    rw [clauses, List.forall_mem_append]
    refine ⟨var_firstRow hk hx fun j => hreg 0 j (by omega), var_laterRows hk hxs fun t ht j => ?_⟩
    rw [Nat.zero_add]
    exact hreg t j (by omega)

/-- The temporaries in the clauses are those of the scope. -/
theorem temp_of_mem_clauses {lits : List Literal} (hk : 1 ≤ k) (hn : k < lits.length) :
    ∀ c ∈ clauses k (lits.map Literal.lift), ∀ l ∈ c, ∀ t, l.var = .temp t → 0 ≤ t ∧ t < size lits.length k := by
  refine var_clauses (p := fun v => ∀ t, v = .temp t → 0 ≤ t ∧ t < size lits.length k) hk ?_ ?_ ?_
  · rw [List.length_map]
    omega
  · intro l hl t ht
    obtain ⟨l, -, rfl⟩ := List.mem_map.1 hl
    cases ht
  · intro t hlt t' ht'
    cases ht'
    rw [List.length_map] at hlt
    omega

end Counter

/-! ### Cardinality constraints -/

private theorem count_le_length (ρ : Env) (lits : List Literal) : count ρ lits ≤ lits.length := List.countP_le_length

private theorem count_negate {ρ : Env} (lits : List Literal) :
    count ρ (lits.map Literal.negate) + count ρ lits = lits.length := by
  unfold count
  rw [List.countP_map, List.length_eq_countP_add_countP (fun l => decide (l.Holds ρ)), Nat.add_comm]
  refine congrArg _ (List.countP_congr fun l _ => ?_)
  simp [Literal.holds_negate]

private theorem count_eq_zero {ρ : Env} {lits : List Literal} : count ρ lits = 0 ↔ ∀ l ∈ lits, ¬l.Holds ρ := by
  unfold count
  rw [List.countP_eq_zero]
  simp only [decide_eq_true_iff]

private theorem one_le_count {ρ : Env} {lits : List Literal} : 1 ≤ count ρ lits ↔ ∃ l ∈ lits, l.Holds ρ := by
  rw [Nat.one_le_iff_ne_zero, Ne, count_eq_zero]
  simp only [not_forall, not_not, exists_prop]

private theorem pairs_hold_iff {ρ : Env} {lits : List Literal} :
    (∀ q ∈ pairs lits, ¬(q.1.Holds ρ ∧ q.2.Holds ρ)) ↔ count ρ lits ≤ 1 := by
  induction lits with
  | nil => simp [pairs, count]
  | cons l lits ih =>
    rw [pairs, List.forall_mem_append, ih, List.forall_mem_map, count_cons, count_singleton]
    by_cases hl : l.Holds ρ
    · have h : (∀ x ∈ lits, ¬(l.Holds ρ ∧ x.Holds ρ)) ↔ count ρ lits = 0 := by
        rw [count_eq_zero]
        simp [hl]
      rw [h, if_pos hl]
      omega
    · have h : ∀ x ∈ lits, ¬(l.Holds ρ ∧ x.Holds ρ) := fun x _ hx => hl hx.1
      rw [if_neg hl, Nat.zero_add]
      exact and_iff_right h

namespace Cardinality

/-- The literals of a constraint. -/
def literals {L K : Type} : Cardinality L K → List L
  | atLeastOne lits | atMostOne lits | exactlyOne lits | atMost lits _ | atLeast lits _ | exactly lits _ => lits

/-- What a constraint says about an environment. -/
def Holds (ρ : Env) : Cardinality Literal Int → Prop
  | atLeastOne lits => 1 ≤ count ρ lits
  | atMostOne lits => count ρ lits ≤ 1
  | exactlyOne lits => count ρ lits = 1
  | atMost lits k => (count ρ lits : Int) ≤ k
  | atLeast lits k => k ≤ count ρ lits
  | exactly lits k => (count ρ lits : Int) = k

open Encoder

variable {known : Value → Prop} {lits : List Literal}

private theorem mem_of_mem_pairs {q : Literal × Literal} (hq : q ∈ pairs lits) : q.1 ∈ lits ∧ q.2 ∈ lits := by
  induction lits with
  | nil => cases hq
  | cons l lits ih =>
    rcases List.mem_append.1 hq with hq | hq
    · obtain ⟨x, hx, rfl⟩ := List.mem_map.1 hq
      exact ⟨List.mem_cons_self .., List.mem_cons_of_mem _ hx⟩
    · exact ⟨List.mem_cons_of_mem _ (ih hq).1, List.mem_cons_of_mem _ (ih hq).2⟩

private theorem means_atMostOne (h : ∀ l ∈ lits, known l.var) :
    (encodeAtMostOne (I := Int) lits).Means known fun ρ => count ρ lits ≤ 1 := by
  refine (means_requireAll fun c hc l hl => ?_).congr fun ρ => ?_
  · obtain ⟨q, hq, rfl⟩ := List.mem_map.1 hc
    obtain ⟨h1, h2⟩ := mem_of_mem_pairs hq
    simp only [List.mem_cons, List.not_mem_nil, or_false] at hl
    rcases hl with rfl | rfl
    · rw [Literal.var_negate]
      exact h _ h1
    · rw [Literal.var_negate]
      exact h _ h2
  · rw [← pairs_hold_iff, List.forall_mem_map]
    exact forall₂_congr fun q _ => Counter.clause_imp_not.trans not_and.symm

private theorem means_counter (h : ∀ l ∈ lits, known l.var) {k : Nat} (hk : 1 ≤ k) (hn : k < lits.length) :
    (withFresh (Counter.size lits.length k) (requireAll (I := Int)
      (Counter.clauses k (lits.map Literal.lift)))).Means known fun ρ => count ρ lits ≤ k := by
  have hlen : (lits.map Literal.lift).length = lits.length := List.length_map _
  refine (Means.withFresh (means_requireAll ?_)).congr (Counter.exists_registers_iff hk hn)
  refine Counter.var_clauses (p := Inside known (Counter.size lits.length k)) hk (by omega) (fun x hx => ?_)
    fun t ht => ?_
  · obtain ⟨l, hl, rfl⟩ := List.mem_map.1 hx
    exact Literal.inside_lift (h l hl)
  · rw [hlen] at ht
    exact ⟨Int.natCast_nonneg t, Int.ofNat_lt.2 ht⟩

private theorem means_atMost (h : ∀ l ∈ lits, known l.var) (k : Int) :
    (encodeAtMost (I := Int) lits k).Means known fun ρ => (count ρ lits : Int) ≤ k := by
  unfold encodeAtMost
  split
  · refine (means_require fun l hl => absurd hl List.not_mem_nil).congr fun ρ => ?_
    simp only [List.not_mem_nil, false_and, exists_false, false_iff]
    omega
  split
  · refine (means_pure ()).congr fun ρ => ?_
    have := count_le_length ρ lits
    simp only [true_iff]
    omega
  split
  · rename_i hk
    refine (means_requireAll ?_).congr fun ρ => ?_
    · simp only [List.forall_mem_map, List.forall_mem_cons, Literal.var_negate, List.not_mem_nil, false_implies,
        implies_true, and_true]
      exact h
    · have hzero : (count ρ lits : Int) ≤ k ↔ count ρ lits = 0 := by omega
      rw [hzero, count_eq_zero, List.forall_mem_map]
      exact forall₂_congr fun l _ => Counter.clause_not
  · refine (means_counter h (k := k.toNat) (by omega) (by omega)).congr fun ρ => ?_
    omega

private theorem means_atLeast (h : ∀ l ∈ lits, known l.var) (k : Int) :
    (encodeAtLeast (I := Int) lits k).Means known fun ρ => k ≤ count ρ lits := by
  unfold encodeAtLeast
  split
  · refine (means_pure ()).congr fun ρ => ?_
    simp only [true_iff]
    omega
  split
  · refine (means_require fun l hl => absurd hl List.not_mem_nil).congr fun ρ => ?_
    have := count_le_length ρ lits
    simp only [List.not_mem_nil, false_and, exists_false, false_iff]
    omega
  · have hneg : ∀ l ∈ lits.map Literal.negate, known l.var := by
      simp only [List.forall_mem_map, Literal.var_negate]
      exact h
    refine (means_atMost hneg _).congr fun ρ => ?_
    have := count_negate (ρ := ρ) lits
    omega

private theorem means_both {α : Type} {e : Encoder Int α} {f : Encoder Int α} {P Q : Env → Prop}
    (he : e.Means known P) (hf : f.Means known Q) : (seq [e, f]).Means known fun ρ => P ρ ∧ Q ρ := by
  refine (Means.seq (.cons he (.cons hf .nil))).congr fun ρ => ?_
  simp

/-- The encoder of a cardinality constraint means what the constraint says. -/
theorem means {c : Cardinality Literal Int} (h : ∀ l ∈ c.literals, known l.var) :
    (c.encode (I := Int)).Means known fun ρ => c.Holds ρ := by
  cases c with
  | atLeastOne lits => exact (means_require h).congr fun ρ => one_le_count.symm
  | atMostOne lits => exact means_atMostOne h
  | exactlyOne lits =>
    have h : ∀ l ∈ lits, known l.var := h
    refine (means_both (means_require h) (means_atMostOne h)).congr fun ρ => ?_
    rw [← one_le_count]
    show _ ↔ count ρ lits = 1
    omega
  | atMost lits k => exact means_atMost h k
  | atLeast lits k => exact means_atLeast h k
  | exactly lits k =>
    have h : ∀ l ∈ lits, known l.var := h
    refine (means_both (means_atMost h k) (means_atLeast h k)).congr fun ρ => ?_
    show _ ↔ (count ρ lits : Int) = k
    omega

/-- In a sound state with guards in scope, the encoder of a constraint on literals in scope succeeds.  Values of the
indices so far can be completed by values of the fresh ones, so that all clauses it added hold, exactly if a guard or
the constraint holds.  In particular the pairs and the counter allow the same values for a bound of one. -/
theorem encode_counts {s : State Int} (hs : s.Sound) {guards : List Literal}
    (ha : s.assumptions = guards.map Literal.toValue) (hg : ∀ g ∈ guards, ∃ i, s.varMap.index g.var = .ok i) :
    (∀ c : Cardinality Literal Int, (∀ l ∈ c.literals, ∃ i, s.varMap.index l.var = .ok i) →
      ∃ t cs, c.encode.runOn s = .ok () t ∧ t.clauses = s.clauses ++ cs ∧
        ∀ σ, (∃ τ, Cnf.AgreeOff s.nextVar t.nextVar σ τ ∧ Cnf.Satisfies τ cs) ↔
          (∃ g ∈ guards, g.Holds (s.varMap.env σ)) ∨ c.Holds (s.varMap.env σ)) ∧
    ∀ lits : List Literal, (∀ l ∈ lits, ∃ i, s.varMap.index l.var = .ok i) →
      ∃ t u cs ds, (atMostOne lits).encode.runOn s = .ok () t ∧ t.clauses = s.clauses ++ cs ∧
        (atMost lits 1).encode.runOn s = .ok () u ∧ u.clauses = s.clauses ++ ds ∧
        ∀ σ, (∃ τ, Cnf.AgreeOff s.nextVar t.nextVar σ τ ∧ Cnf.Satisfies τ cs) ↔
          ∃ τ, Cnf.AgreeOff s.nextVar u.nextVar σ τ ∧ Cnf.Satisfies τ ds := by
  have hready : s.Ready guards fun v => ∃ i, s.varMap.index v = .ok i := ⟨hs, ha, hg, fun v hv => hv⟩
  have hcount (c : Cardinality Literal Int) (hc : ∀ l ∈ c.literals, ∃ i, s.varMap.index l.var = .ok i) :
      ∃ t cs, c.encode.runOn s = .ok () t ∧ t.clauses = s.clauses ++ cs ∧
        ∀ σ, (∃ τ, Cnf.AgreeOff s.nextVar t.nextVar σ τ ∧ Cnf.Satisfies τ cs) ↔
          (∃ g ∈ guards, g.Holds (s.varMap.env σ)) ∨ c.Holds (s.varMap.env σ) := by
    obtain ⟨⟨⟩, t, hr, ht⟩ := means hc s guards hready
    exact ⟨t, s.newClauses t, hr, ht.frame.clauses_append, ht.solvable_iff⟩
  refine ⟨hcount, fun lits hl => ?_⟩
  obtain ⟨t, cs, hr, hcs, hpairs⟩ := hcount (atMostOne lits) hl
  obtain ⟨u, ds, hr', hds, hcounter⟩ := hcount (atMost lits 1) hl
  refine ⟨t, u, cs, ds, hr, hcs, hr', hds, fun σ => ?_⟩
  rw [hpairs, hcounter]
  refine or_congr_right ?_
  show count (s.varMap.env σ) lits ≤ 1 ↔ (count (s.varMap.env σ) lits : Int) ≤ 1
  omega

/-- Inside a scope, under a guard `b` from outside: of a temporary, its negation and twice `a` at most one holds
exactly if `a` does not. -/
theorem encode_counts_of_repeated_literals :
    let named : Table Int := ⟨[(.str "a", 1), (.str "b", 2)], by decide⟩
    let a : Literal := .lift (.named (.str "a") true)
    let b : Literal := .lift (.named (.str "b") true)
    let s : State Int :=
      { nextVar := 4, clauses := [], varMap := (VarMap.ofTable named).extend 3 1, assumptions := [b.toValue]
        contexts := [], checkInvariants := true, traceContexts := true, journal := .empty }
    ∃ t, (atMost [.temp 0 true, .temp 0 false, a, a] 1).encode.runOn s = .ok () t ∧
      ∀ σ, (∃ τ, Cnf.AgreeOff 4 t.nextVar σ τ ∧ Cnf.Satisfies τ t.clauses) ↔ σ 2 = true ∨ σ 1 = false := by
  intro named a b s
  have hs : s.Sound := (State.check_eq_ok_iff (by decide)).1 rfl
  have ha : s.assumptions = [b].map Literal.toValue := rfl
  have hb : ∀ g ∈ [b], ∃ i, s.varMap.index g.var = .ok i := by
    intro g hg
    rw [List.mem_singleton.1 hg]
    exact ⟨2, rfl⟩
  obtain ⟨t, cs, hr, hcs, hiff⟩ := (encode_counts hs ha hb).1
    (atMost [.temp 0 true, .temp 0 false, a, a] 1) (by
      simp only [literals, List.forall_mem_cons]
      exact ⟨⟨3, rfl⟩, ⟨3, rfl⟩, ⟨1, rfl⟩, ⟨1, rfl⟩, fun l hl => absurd hl List.not_mem_nil⟩)
  refine ⟨t, hr, fun σ => ?_⟩
  rw [hcs]
  refine (hiff σ).trans (or_congr ?_ ?_)
  · simp only [List.mem_singleton, exists_eq_left]
    rfl
  · have ha : a.Holds (s.varMap.env σ) ↔ σ 1 = true := Iff.rfl
    have hp : (Literal.temp 0 true).Holds (s.varMap.env σ) ↔ σ 3 = true := Iff.rfl
    have hn : (Literal.temp 0 false).Holds (s.varMap.env σ) ↔ σ 3 = false := Iff.rfl
    show (count (s.varMap.env σ) [.temp 0 true, .temp 0 false, a, a] : Int) ≤ 1 ↔ _
    rw [count_cons, count_cons (l := .temp 0 false), count_cons (l := a)]
    simp only [count_singleton, ha, hp, hn]
    cases σ 1 <;> cases σ 3 <;> decide

end Cardinality

end Clausify
