import Clausify.Proofs.Outcome
import Mathlib.Data.List.FinRange

/-!
# Statements

A `Statement` is a program of clauses, sequences, contexts, guards, temporary scopes and assignments.  It holds in an
environment by its structure (`Statement.Holds`): guards are alternatives, and a temporary scope asks for values of
its temporaries.  Its encoder means what it says (`Statement.means`), so the models of a run are the assignments of
the universe in which it holds (`Statement.models_run`).
-/

namespace Clausify

/-- Programs without results. -/
inductive Statement : Type 1 where
  | clause (c : List Literal)
  | clauses (cs : List (List Literal))
  | seq {n : Nat} (ps : Fin n → Statement)
  | each {ι : Type} (items : List ι) (f : ι → Statement)
  | andThen (p q : Statement)
  | context (name : String) (p : Statement)
  | unlessAny (guards : List Literal) (p : Statement)
  | ifAll (lits : List Literal) (p : Statement)
  | withFresh (n : Nat) (p : Statement)
  | exclude (a : Assignment)
  | prescribe (a : Assignment)

namespace Statement

def encoder : Statement → Encoder Int Unit
  | clause c => .require c
  | clauses cs => .requireAll cs
  | seq ps => .seq (List.ofFn fun i => (ps i).encoder)
  | each items f => .each items fun i => (f i).encoder
  | andThen p q => p.encoder.andThen q.encoder
  | context name p => .context name p.encoder
  | unlessAny guards p => .unlessAny guards p.encoder
  | ifAll lits p => .ifAll lits p.encoder
  | withFresh n p => .withFresh n p.encoder
  | exclude a => .exclude a
  | prescribe a => .prescribe a

/-- What a statement says about the environment. -/
def Holds : Statement → Env → Prop
  | clause c, ρ => ∃ l ∈ c, l.Holds ρ
  | clauses cs, ρ => ∀ c ∈ cs, ∃ l ∈ c, l.Holds ρ
  | seq ps, ρ => ∀ i, (ps i).Holds ρ
  | each items f, ρ => ∀ i ∈ items, (f i).Holds ρ
  | andThen p q, ρ => p.Holds ρ ∧ q.Holds ρ
  | context _ p, ρ => p.Holds ρ
  | unlessAny guards p, ρ => (∃ g ∈ guards, g.Holds ρ) ∨ p.Holds ρ
  | ifAll lits p, ρ => (∃ l ∈ lits, ¬l.Holds ρ) ∨ p.Holds ρ
  | withFresh n p, ρ => ∃ b : Fin n → Bool, p.Holds (ρ.inside b)
  | exclude a, ρ => ∃ e ∈ a.entries, ρ e.1 ≠ e.2
  | prescribe a, ρ => ∀ e ∈ a.entries, ρ e.1 = e.2

/-- All variables are among the known ones, or in the temporary scopes around them. -/
def InScope : Statement → (Value → Prop) → Prop
  | clause c, known => ∀ l ∈ c, known l.var
  | clauses cs, known => ∀ c ∈ cs, ∀ l ∈ c, known l.var
  | seq ps, known => ∀ i, (ps i).InScope known
  | each items f, known => ∀ i ∈ items, (f i).InScope known
  | andThen p q, known => p.InScope known ∧ q.InScope known
  | context _ p, known => p.InScope known
  | unlessAny guards p, known => (∀ g ∈ guards, known g.var) ∧ p.InScope known
  | ifAll lits p, known => (∀ l ∈ lits, known l.var) ∧ p.InScope known
  | withFresh n p, known => p.InScope (Inside known n)
  | exclude a, known => ∀ e ∈ a.entries, known e.1
  | prescribe a, known => ∀ e ∈ a.entries, known e.1

open Encoder in
theorem means {p : Statement} {known : Value → Prop} (h : p.InScope known) : p.encoder.Means known p.Holds := by
  induction p generalizing known with
  | clause c => exact means_require h
  | clauses cs => exact means_requireAll h
  | @seq n ps ih =>
    have hall : List.Forall₂ (fun e P => Means e known P) (List.ofFn fun i => (ps i).encoder)
        (List.ofFn fun i => (ps i).Holds) := by
      rw [List.ofFn_eq_map, List.ofFn_eq_map, List.forall₂_map_left_iff, List.forall₂_map_right_iff]
      exact List.forall₂_same.2 fun i _ => ih i (h i)
    refine (Means.seq hall).congr fun ρ => ?_
    simp only [List.forall_mem_ofFn_iff]
    rfl
  | each items f ih => exact Means.each fun i hi => ih i (h i hi)
  | andThen p q ihp ihq => exact (ihp h.1).andThen (ihq h.2)
  | context name p ih => exact (ih h).context name
  | unlessAny guards p ih => exact (ih h.2).unlessAny h.1
  | ifAll lits p ih => exact (ih h.2).ifAll h.1
  | withFresh n p ih => exact (ih h).withFresh
  | exclude a =>
    refine (means_require ?_).congr fun ρ => ?_
    · intro l hl
      obtain ⟨e, he, rfl⟩ := List.mem_map.1 hl
      exact h e he
    · simp only [List.mem_map, exists_exists_and_eq_and]
      refine exists_congr fun e => and_congr_right fun _ => ?_
      exact Bool.eq_not
  | prescribe a =>
    refine (Means.each fun e he => means_require (c := [.named e.1 e.2]) ?_).congr fun ρ => ?_
    · intro l hl
      rw [List.mem_singleton.1 hl]
      exact h e he
    · simp only [List.mem_singleton, exists_eq_left]
      rfl

/-- On a universe of hashable and pairwise different variables, a statement about these runs without failing, and the
models of its result are the assignments of the universe in which it holds. -/
theorem models_run {vars : List Value} (hhash : ∀ v ∈ vars, v.hashable = true)
    (hdiff : vars.Pairwise fun v w => v.same w = false) {p : Statement} (hp : p.InScope (Named vars))
    (config : Config) (j : Journal) :
    ∃ (r : Result Int Unit) (j' : Journal), run vars (.encoder p.encoder) none config j = .ok r j' ∧
      ∃ ms, r.models = .ok ms ∧ ∀ a, a ∈ ms ↔ a.keys = vars ∧ p.Holds fun v => (a.find? v).getD false := by
  obtain ⟨m, hm, -⟩ := VarMap.ofUniverse_none hhash hdiff
  exact (means hp).models_eq_ok hm config j

/-- Unless `a` holds, a temporary that is true implies `b`. -/
theorem models_run_of_guarded_scope :
    let vars : List Value := [.str "a", .str "b"]
    let p : Statement := .unlessAny [.named (.str "a") true] (.withFresh 1 (.clauses
      [[.temp 0 true], [.temp 0 false, .lift (.named (.str "b") true)]]))
    ∃ (r : Result Int Unit) (j : Journal), run vars (.encoder p.encoder) none {} .empty = .ok r j ∧
      ∃ ms, r.models = .ok ms ∧ ⟨[(.str "a", false), (.str "b", false)], by decide⟩ ∉ ms ∧
        ⟨[(.str "a", false), (.str "b", true)], by decide⟩ ∈ ms := by
  intro vars p
  have ha : Named vars (.str "a") := ⟨.str "a", List.mem_cons_self .., Value.same_refl _⟩
  have hb : Named vars (.str "b") := ⟨.str "b", List.mem_cons_of_mem _ (List.mem_cons_self ..), Value.same_refl _⟩
  have hp : p.InScope (Named vars) := by
    simp [p, InScope, Literal.temp, Literal.lift, Literal.var, Inside, ha, hb]
  obtain ⟨r, j, hr, ms, hms, hmem⟩ := models_run (by decide) (by decide) hp {} .empty
  refine ⟨r, j, hr, ms, hms, ?_, (hmem _).2 ⟨rfl, .inr ⟨fun _ => true, ?_⟩⟩⟩
  · rw [hmem]
    rintro ⟨-, ⟨g, hg, h⟩ | ⟨b, h⟩⟩
    · rw [List.mem_singleton.1 hg] at h
      exact absurd h (by decide)
    · simp [Holds, Literal.Holds, Literal.temp, Literal.lift, Literal.var, Literal.positive, Env.inside] at h
      rcases h with ⟨h1, h2 | h2⟩
      · rw [h1] at h2
        cases h2
      · exact absurd h2 (by decide)
  · simp [Holds, Literal.Holds, Literal.temp, Literal.lift, Literal.var, Literal.positive, Env.inside]
    decide

end Statement

end Clausify
