import Clausify.Proofs.Emission
import Mathlib.Algebra.GroupWithZero.Nat

/-!
# What encoders spend

An encoder without choices takes a fixed number of indices and adds a fixed number of clauses when it succeeds, and
never more when it fails, in whatever state it starts (`Encoder.Spends`).  Steps in order spend the sums.  A temporary
scope takes its own indices besides those of its body; where it finds the counter set back it keeps its own.
-/

namespace Clausify

variable {I α β ι : Type}

/-- A result in which `n` indices were taken and `k` clauses added since a state, or at most as many before a
failure. -/
def State.Spent (s : State I) (n k : Nat) : EStateM.Result Error (State I) α → Prop
  | .ok _ t => t.nextVar = s.nextVar + n ∧ t.clauses.length = s.clauses.length + k
  | .error _ t => t.nextVar ≤ s.nextVar + n ∧ t.clauses.length ≤ s.clauses.length + k

namespace Encoder

/-- From every state the computation takes `n` indices and adds `k` clauses, or at most as many before it fails. -/
def Spends (x : EStateM Error (State I) α) (n k : Nat) : Prop :=
  ∀ s : State I, s.Spent n k (x s)

variable {x : EStateM Error (State I) α} {n m k j : Nat}

/-! ### Order -/

private theorem spends_pure (a : α) : Spends (pure a : EStateM Error (State I) α) 0 0 :=
  fun s => ⟨(Int.add_zero s.nextVar).symm, rfl⟩

theorem Spends.bind {f : α → EStateM Error (State I) β} (hx : Spends x n k) (hf : ∀ a, Spends (f a) m j) :
    Spends (x >>= f) (n + m) (k + j) := by
  intro s
  have hs := hx s
  show s.Spent _ _ (EStateM.bind x f s)
  unfold EStateM.bind
  cases hr : x s with
  | error y t =>
    rw [hr] at hs
    obtain ⟨hn, hk⟩ := hs
    exact ⟨by omega, by omega⟩
  | ok a t =>
    rw [hr] at hs
    obtain ⟨hn, hk⟩ := hs
    have ht := hf a t
    dsimp only
    cases hr' : f a t with
    | error y u | ok b u =>
      rw [hr'] at ht
      obtain ⟨hm, hj⟩ := ht
      exact ⟨by omega, by omega⟩

private theorem spends_forM {f : ι → EStateM Error (State I) PUnit} {n k : ι → Nat} {is : List ι}
    (h : ∀ i ∈ is, Spends (f i) (n i) (k i)) : Spends (is.forM f) (is.map n).sum (is.map k).sum := by
  induction is with
  | nil => exact spends_pure PUnit.unit
  | cons i is ih =>
    obtain ⟨hi, his⟩ := List.forall_mem_cons.1 h
    have hcons : (i :: is).forM f = (f i >>= fun _ => is.forM f) := List.forM_cons
    rw [hcons, List.map_cons, List.map_cons, List.sum_cons, List.sum_cons]
    exact hi.bind fun _ => ih his

/-- The check behind a step passes where the step succeeded, since it took no index back. -/
theorem Spends.runOn {e : Encoder I α} (h : Spends e.step n k) : Spends e.runOn n k := by
  have hasc : Ascending e.step := by
    intro s a t hr
    have hs := h s
    rw [hr] at hs
    have := hs.1
    omega
  rw [hasc.runOn_eq]
  exact h

theorem Spends.each {f : ι → Encoder I α} {n k : ι → Nat} {items : List ι}
    (h : ∀ i ∈ items, Spends (f i).runOn (n i) (k i)) :
    Spends (each items f).runOn (items.map n).sum (items.map k).sum := by
  unfold Encoder.each
  rw [runOn_eachChosen]
  exact spends_forM fun i hi => (h i hi).bind fun _ => spends_pure PUnit.unit

/-! ### Clauses and scopes -/

variable [Index I]

theorem spends_require (c : List Literal) : Spends (require c : Encoder I Unit).runOn 0 1 := by
  intro s
  rw [runOn_require]
  cases hc : s.addClause c with
  | error x => exact ⟨by omega, by omega⟩
  | ok t =>
    obtain ⟨d, -, -, rfl⟩ := State.addClause_eq_ok.1 hc
    exact ⟨(Int.add_zero s.nextVar).symm, List.length_append⟩

theorem spends_requireAll (cs : List (List Literal)) : Spends (requireAll cs : Encoder I Unit).runOn 0 cs.length := by
  have h : Spends (requireAll cs : Encoder I Unit).runOn (cs.map fun _ => 0).sum (cs.map fun _ => 1).sum :=
    Spends.each fun c _ => spends_require c
  simpa using h

omit [Index I] in
/-- A scope hands over the formula, and the counter unless it fell. -/
private theorem leave_eq (s t : State I) :
    (endState (s.leave t)).nextVar = max s.nextVar t.nextVar ∧ (endState (s.leave t)).clauses = t.clauses := by
  unfold State.leave
  dsimp only
  split
  · next h => exact ⟨(Int.max_eq_left (Int.le_of_lt h)).symm, rfl⟩
  · next h => exact ⟨(Int.max_eq_right (Int.not_lt.1 h)).symm, rfl⟩

omit [Index I] in
theorem Spends.withFresh {e : Encoder I α} (h : Spends e.runOn m k) (n : Nat) :
    Spends (withFresh n e).runOn (n + m) k := by
  refine Spends.runOn fun s => ?_
  have hnext : (s.takeFresh n).nextVar = s.nextVar + n := rfl
  unfold Encoder.withFresh
  dsimp only
  cases hi : (s.takeFresh n).enter s.nextVar n with
  | error x => exact ⟨by omega, Nat.le_add_right _ _⟩
  | ok inner =>
    obtain ⟨gs, -, he⟩ := State.enter_eq_ok.1 hi
    have hinner : inner.nextVar = s.nextVar + n := by rw [he, hnext]
    have hclauses : inner.clauses = s.clauses := by
      rw [he]
      rfl
    have ht := h inner
    dsimp only
    cases hr : e.runOn inner with
    | ok a t =>
      rw [hr] at ht
      obtain ⟨hm, hk⟩ := ht
      rw [hclauses] at hk
      have hle : (s.takeFresh n).nextVar ≤ t.nextVar := by omega
      dsimp only
      rw [State.leave_of_le hle]
      exact ⟨by dsimp only; omega, hk⟩
    | error x t =>
      rw [hr] at ht
      obtain ⟨hm, hk⟩ := ht
      rw [hclauses] at hk
      obtain ⟨hmax, hformula⟩ := leave_eq (s.takeFresh n) t
      dsimp only
      cases hl : (s.takeFresh n).leave t with
      | ok _ u | error y u =>
        rw [hl] at hmax hformula
        simp only [endState_ok, endState_error] at hmax hformula
        rw [← hformula] at hk
        exact ⟨by omega, hk⟩

end Encoder

end Clausify
