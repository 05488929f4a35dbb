import Clausify.Encoder.Scope
import Clausify.Proofs.Valuation

/-!
# Environments

An environment gives truth values to variables.  A variable map turns values of indices into one (`VarMap.env`), in
which a literal holds exactly if its signed index does (`holds_iff_of_signedIndex`).  Opening a temporary scope adds
the values of the temporaries (`VarMap.env_extend`).
-/

namespace Clausify

/-- Truth values of variables. -/
abbrev Env := Value → Bool

/-- The environment inside a temporary scope, with values for its temporaries. -/
def Env.inside {n : Nat} (ρ : Env) (b : Fin n → Bool) : Env
  | .outer v => ρ v
  | .temp i => if h : 0 ≤ i ∧ i < n then b ⟨i.toNat, by omega⟩ else false
  | _ => false

/-- The variables in scope inside a temporary scope. -/
def Inside (known : Value → Prop) (n : Nat) : Value → Prop
  | .outer v => known v
  | .temp i => 0 ≤ i ∧ i < n
  | _ => False

namespace Literal

/-- A literal holds: its variable has its polarity as value. -/
def Holds (ρ : Env) (l : Literal) : Prop := ρ l.var = l.positive

instance (ρ : Env) (l : Literal) : Decidable (l.Holds ρ) := inferInstanceAs (Decidable (_ = _))

theorem holds_negate {ρ : Env} {l : Literal} : l.negate.Holds ρ ↔ ¬l.Holds ρ := by
  unfold Holds
  rw [var_negate, positive_negate]
  cases ρ l.var <;> cases l.positive <;> decide

theorem holds_lift {n : Nat} {ρ : Env} {b : Fin n → Bool} {l : Literal} : l.lift.Holds (ρ.inside b) ↔ l.Holds ρ :=
  Iff.rfl

theorem inside_lift {known : Value → Prop} {n : Nat} {l : Literal} (h : known l.var) : Inside known n l.lift.var := h

/-- The literal of a temporary is true exactly if the temporary is. -/
theorem holds_temp {n : Nat} {ρ : Env} {b : Fin n → Bool} {i : Nat} (hi : i < n) (p : Bool) :
    (temp i p).Holds (ρ.inside b) ↔ b ⟨i, hi⟩ = p := by
  have e : ρ.inside b (.temp i) = b ⟨i, hi⟩ := dif_pos ⟨Int.natCast_nonneg i, Int.ofNat_lt.2 hi⟩
  show ρ.inside b (.temp i) = p ↔ _
  rw [e]

end Literal

/-- All clauses hold. -/
def Env.Satisfies (ρ : Env) (cs : List (List Literal)) : Prop := ∀ c ∈ cs, ∃ l ∈ c, l.Holds ρ

namespace Env

theorem satisfies_append {ρ : Env} {cs ds : List (List Literal)} :
    ρ.Satisfies (cs ++ ds) ↔ ρ.Satisfies cs ∧ ρ.Satisfies ds :=
  List.forall_mem_append

theorem satisfies_cons {ρ : Env} {c : List Literal} {cs : List (List Literal)} :
    ρ.Satisfies (c :: cs) ↔ (∃ l ∈ c, l.Holds ρ) ∧ ρ.Satisfies cs :=
  List.forall_mem_cons

theorem satisfies_nil {ρ : Env} : ρ.Satisfies [] := fun _ hc => absurd hc List.not_mem_nil

end Env

/-! ### The environment of a map -/

namespace VarMap

/-- The environment that values of indices give. -/
def env (m : VarMap Int) (σ : Int → Bool) : Env := fun v =>
  match m.index v with
  | .ok i => σ i
  | .error _ => false

theorem env_of_index {m : VarMap Int} {v : Value} {i : Int} (h : m.index v = .ok i) (σ : Int → Bool) :
    m.env σ v = σ i := by
  unfold env
  rw [h]

private theorem env_congr {m : VarMap Int} {σ τ : Int → Bool} (h : ∀ i ∈ m.usedIndices, τ i = σ i) :
    m.env τ = m.env σ := by
  funext v
  unfold env
  cases hv : m.index v with
  | error x => rfl
  | ok i => exact h i (index_mem_usedIndices hv)

/-- Values of fresh indices do not matter to a map. -/
theorem Sound.env_eq {m : VarMap Int} {lo hi : Int} {σ τ : Int → Bool} (h : m.Sound lo)
    (hτ : Cnf.AgreeOff lo hi σ τ) :
    m.env τ = m.env σ :=
  env_congr fun i hi => hτ i (.inl (h.indices_between i hi).2)

theorem env_extend (m : VarMap Int) (base : Int) (n : Nat) (σ : Int → Bool) :
    (m.extend base n).env σ = (m.env σ).inside fun i : Fin n => σ (base + (i : Nat)) := by
  funext v
  cases v with
  | outer v => rfl
  | temp i =>
    by_cases h : 0 ≤ i ∧ i < n
    · have e : (m.extend base n).index (.temp i) = .ok (base + i) := if_pos h
      rw [env_of_index e]
      have e' : (m.env σ).inside (fun i : Fin n => σ (base + (i : Nat))) (.temp i) = σ (base + (i.toNat : Nat)) :=
        dif_pos h
      rw [e', Int.toNat_of_nonneg h.1]
    · have e : (m.extend base n).index (.temp i) = .error (.temporaryOutOfRange i n) := if_neg h
      have e' : (m.env σ).inside (fun i : Fin n => σ (base + (i : Nat))) (.temp i) = false := dif_neg h
      rw [e']
      unfold env
      rw [e]
  | _ => rfl

theorem index_extend {m : VarMap Int} {known : Value → Prop} (h : ∀ v, known v → ∃ i, m.index v = .ok i) (base : Int)
    (n : Nat) : ∀ v, Inside known n v → ∃ i, (m.extend base n).index v = .ok i := by
  intro v hv
  cases v with
  | outer v => exact h v hv
  | temp i => exact ⟨base + i, if_pos hv⟩
  | _ => cases hv

theorem signedIndex_of_index {m : VarMap Int} {l : Literal} {i : Int} (h : m.index l.var = .ok i) :
    m.signedIndex l = .ok (if l.positive then i else -i) := by
  unfold signedIndex
  rw [h]
  cases l.positive <;> rfl

theorem holds_iff_of_signedIndex {m : VarMap Int} {next : Int} (hm : m.Sound next) {l : Literal} {j : Int}
    (h : m.signedIndex l = .ok j) (σ : Int → Bool) : Cnf.Holds σ j ↔ l.Holds (m.env σ) := by
  obtain ⟨i, hi, -⟩ := signedIndex_eq_ok h
  have hpos := (hm.indices_between i (index_mem_usedIndices hi)).1
  rw [signedIndex_of_index hi] at h
  cases h
  unfold Literal.Holds
  rw [env_of_index hi]
  exact Cnf.holds_signed hpos l.positive

theorem exists_holds_iff {m : VarMap Int} {next : Int} (hm : m.Sound next) {ls : List Literal} {js : List Int}
    (h : List.Forall₂ (fun l j => m.signedIndex l = .ok j) ls js) (σ : Int → Bool) :
    (∃ j ∈ js, Cnf.Holds σ j) ↔ ∃ l ∈ ls, l.Holds (m.env σ) := by
  induction h with
  | nil => simp
  | cons hj _ ih => simp only [List.exists_mem_cons_iff, ih, holds_iff_of_signedIndex hm hj]

end VarMap

end Clausify
