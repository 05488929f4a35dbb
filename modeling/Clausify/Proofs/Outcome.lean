import Clausify.Proofs.BruteForce
import Clausify.Proofs.Meaning
import Clausify.Proofs.Runs

/-!
# The outcome of a run

A run of an encoder that means a property succeeds on every universe that is accepted.  Values of the variables
extend to a solution of its formula exactly if they have the property (`Encoder.Means.run_eq_ok`), and the models
are the assignments of the universe that have it (`Encoder.Means.models_eq_ok`).
-/

namespace Clausify

variable {α : Type} {vars : List Value} {m : VarMap Int}

/-- The variables of a universe. -/
def Named (vars : List Value) (v : Value) : Prop := ∃ w ∈ vars, w.same v = true

namespace VarMap.IsOf

theorem index_eq (h : m.IsOf vars) (v : Value) : m.index v = namedIndex m.named v := by
  unfold index
  rw [h.scopes_eq]
  rfl

private theorem exists_index (h : m.IsOf vars) {v : Value} (hv : Named vars v) : ∃ i, m.index v = .ok i := by
  obtain ⟨w, hw, hs⟩ := hv
  rw [← h.keys_eq] at hw
  obtain ⟨i, hi⟩ := Table.exists_find?_of_contains (Table.contains_iff.2 ⟨w, hw, hs⟩)
  rw [h.keys_eq] at hw
  refine ⟨i, ?_⟩
  rw [h.index_eq, namedIndex, if_pos (Value.hashable_of_same hs (h.hashable w hw)), hi]

/-- Values of indices give the variables the values of an assignment that they agree with. -/
theorem env_eq (h : m.IsOf vars) {a : Assignment} {σ : Int → Bool} (hk : a.keys = m.named.keys)
    (hg : ∀ e ∈ m.named.entries, a.find? e.1 = some (σ e.2)) : m.env σ = fun v => (a.find? v).getD false := by
  funext v
  unfold env
  rw [h.index_eq, namedIndex]
  cases hf : m.named.find? v with
  | some i =>
    obtain ⟨k, hki, hkv⟩ := Table.find?_eq_some_iff.1 hf
    have hv : v.hashable = true := Value.hashable_of_same hkv
      (h.hashable k (h.keys_eq ▸ List.mem_map_of_mem (f := (·.1)) hki))
    rw [if_pos hv]
    show σ i = (a.find? v).getD false
    rw [← a.find?_congr hkv, hg _ hki, Option.getD_some]
  | none =>
    have ha : a.find? v = none := by
      cases hb : a.find? v with
      | none => rfl
      | some b =>
        obtain ⟨k, hk', hkv⟩ := Table.find?_eq_some_iff.1 hb
        have hmem : k ∈ m.named.keys := hk ▸ List.mem_map_of_mem (f := (·.1)) hk'
        obtain ⟨i, hi⟩ := Table.exists_find?_of_contains (Table.contains_iff.2 ⟨k, hmem, hkv⟩)
        rw [hf] at hi
        cases hi
    rw [ha]
    cases v.hashable <;> rfl

end VarMap.IsOf

/-- Some values of indices give the variables those of an environment. -/
theorem exists_values {t : Table Int} (ht : t.values.Nodup) (ρ : Env) :
    ∃ σ : Int → Bool, ∀ e ∈ t.entries, σ e.2 = ρ e.1 := by
  refine ⟨fun i => ((t.entries.find? fun e => e.2 = i).map fun e => ρ e.1).getD false, fun e he => ?_⟩
  have hfind : (t.entries.find? fun f => f.2 = e.2) = some e := by
    cases hf : t.entries.find? fun f => f.2 = e.2 with
    | none =>
      have := List.find?_eq_none.1 hf e he
      simp at this
    | some f =>
      have h2 : f.2 = e.2 := by simpa using List.find?_some hf
      exact congrArg some (List.inj_on_of_nodup_map ht (List.mem_of_find?_eq_some hf) he h2)
  dsimp only
  rw [hfind, Option.map_some, Option.getD_some]

/-- Some values of indices give the variables those of an assignment. -/
theorem exists_gives {t : Table Int} (ht : t.values.Nodup) {a : Assignment} (hk : a.keys = t.keys) :
    ∃ σ : Int → Bool, ∀ e ∈ t.entries, a.find? e.1 = some (σ e.2) := by
  obtain ⟨σ, hσ⟩ := exists_values ht fun v => (a.find? v).getD false
  refine ⟨σ, fun e he => ?_⟩
  have hmem : e.1 ∈ a.keys := hk ▸ List.mem_map_of_mem (f := (·.1)) he
  obtain ⟨b, hb⟩ := Table.exists_find?_of_contains (Table.contains_iff.2 ⟨e.1, hmem, Value.same_refl _⟩)
  rw [hσ e he, hb, Option.getD_some]

/-- Values that give the variables of a result those of an assignment are the same as others that do. -/
private theorem Result.gives_iff {r : Result Int α} {a : Assignment} {σ : Int → Bool} (hσ : r.Gives a σ)
    {τ : Int → Bool} : r.Gives a τ ↔ ∀ i ∈ r.varMap.values, τ i = σ i := by
  constructor
  · intro h i hi
    obtain ⟨e, he, rfl⟩ := List.mem_map.1 hi
    exact Option.some.inj ((h e he).symm.trans (hσ e he))
  · intro h e he
    rw [hσ e he, h e.2 (List.mem_map_of_mem (f := (·.2)) he)]

private theorem Result.admits_iff {r : Result Int α} {a : Assignment} {σ : Int → Bool} (hσ : r.Gives a σ) :
    r.Admits a ↔ ∃ τ, (∀ i ∈ r.varMap.values, τ i = σ i) ∧ Cnf.Satisfies τ r.clauses :=
  exists_congr fun _ => and_congr_left fun _ => Result.gives_iff hσ

/-! ### From the initial state -/

section

variable {ci tc : Bool} {j : Journal} {t : State Int}

theorem State.ready_initial (h : m.IsOf vars) : (State.initial m ci tc j).Ready [] (Named vars) :=
  ⟨State.initial_sound h ci tc j, rfl, fun _ hg => absurd hg List.not_mem_nil, fun _ hv => h.exists_index hv⟩

private theorem usedIndices_of_universe (h : m.IsOf vars) : m.usedIndices = m.named.values := by
  rw [m.usedIndices_int, h.scopes_eq]
  exact List.append_nil _

/-- The result that a run has in a later state is sound. -/
theorem State.Frame.result_sound (hf : (State.initial m ci tc j).Frame t) (h : m.IsOf vars) (a : α) :
    Result.Sound ⟨a, t.clauses, m.named, t.nextVar - 1⟩ := by
  refine ⟨h.values_nodup, fun c hc l hl => ?_⟩
  have := (hf.sound (State.initial_sound h ci tc j)).literals_between c hc l hl
  dsimp only
  omega

/-- Values of the variables extend to a solution of the formula exactly if values of the fresh indices complete
them. -/
private theorem State.Frame.exists_solution_iff (hf : (State.initial m ci tc j).Frame t) (h : m.IsOf vars)
    (σ : Int → Bool) : (∃ τ, (∀ i ∈ m.named.values, τ i = σ i) ∧ Cnf.Satisfies τ t.clauses) ↔
      Cnf.Solvable (State.initial m ci tc j).nextVar t.nextVar σ ((State.initial m ci tc j).newClauses t) := by
  have hs := State.initial_sound h ci tc j
  have hwithin := hf.newClauses_within hs
  have hnew : (State.initial m ci tc j).newClauses t = t.clauses := List.drop_zero
  rw [hnew] at hwithin ⊢
  have hused : (State.initial m ci tc j).varMap.usedIndices = m.named.values := usedIndices_of_universe h
  rw [hused] at hwithin
  exact (Cnf.solvable_iff_of_within hwithin fun i hi => (hs.varMap_sound.indices_between i (hused ▸ hi)).2).symm

theorem State.Frame.admits_iff (hf : (State.initial m ci tc j).Frame t) (h : m.IsOf vars) {a : Assignment}
    {σ : Int → Bool} (hσ : ∀ e ∈ m.named.entries, a.find? e.1 = some (σ e.2)) (x : α) :
    Result.Admits ⟨x, t.clauses, m.named, t.nextVar - 1⟩ a ↔
      Cnf.Solvable (State.initial m ci tc j).nextVar t.nextVar σ ((State.initial m ci tc j).newClauses t) :=
  (Result.admits_iff (r := ⟨x, t.clauses, m.named, t.nextVar - 1⟩) hσ).trans (hf.exists_solution_iff h σ)

end

namespace Encoder.Means

variable {embedding : Option (Table Value)} {e : Encoder Int α} {P : Env → Prop}

theorem run_eq_ok (he : e.Means (Named vars) P) (hm : VarMap.ofUniverse vars embedding = .ok m) (config : Config)
    (j : Journal) :
    ∃ r j', run vars (.encoder e) embedding config j = .ok r j' ∧ r.varMap = m.named ∧ r.Sound ∧
      ∀ σ, (∃ τ, (∀ i ∈ m.named.values, τ i = σ i) ∧ Cnf.Satisfies τ r.clauses) ↔ P (m.env σ) := by
  have hof := VarMap.ofUniverse_spec hm
  have hready : (State.initial m config.checkInvariants config.traceContexts j).Ready [] (Named vars) :=
    State.ready_initial hof
  obtain ⟨a, t, hr, ht⟩ := he _ [] hready
  have hrun := Encoder.runFrom_of_ok hr ht.frame hready.sound rfl rfl
  refine ⟨_, _, (run_of_universe hm e config j).trans hrun, rfl, ht.frame.result_sound hof a, fun σ => ?_⟩
  refine (ht.frame.exists_solution_iff hof σ).trans ((ht.solvable_iff σ).trans ?_)
  simp only [List.not_mem_nil, false_and, exists_false, false_or]
  rfl

/-- An assignment of the universe extends to a solution exactly if it has the property. -/
theorem admits_iff (he : e.Means (Named vars) P) (hm : VarMap.ofUniverse vars embedding = .ok m) (config : Config)
    (j : Journal) :
    ∃ r j', run vars (.encoder e) embedding config j = .ok r j' ∧ r.varMap = m.named ∧ r.Sound ∧
      ∀ a : Assignment, a.keys = vars → (r.Admits a ↔ P fun v => (a.find? v).getD false) := by
  have hof := VarMap.ofUniverse_spec hm
  obtain ⟨r, j', hr, hmap, hsound, hsat⟩ := he.run_eq_ok hm config j
  refine ⟨r, j', hr, hmap, hsound, fun a hk => ?_⟩
  have hk : a.keys = m.named.keys := hk.trans hof.keys_eq.symm
  obtain ⟨σ, hσ⟩ := exists_gives hof.values_nodup hk
  rw [← hof.env_eq hk hσ, ← hsat σ, ← hmap]
  rw [← hmap] at hσ
  exact Result.admits_iff hσ

theorem models_eq_ok (he : e.Means (Named vars) P) (hm : VarMap.ofUniverse vars embedding = .ok m) (config : Config)
    (j : Journal) :
    ∃ r j', run vars (.encoder e) embedding config j = .ok r j' ∧ ∃ ms, r.models = .ok ms ∧
      ∀ a, a ∈ ms ↔ a.keys = vars ∧ P fun v => (a.find? v).getD false := by
  obtain ⟨r, j', hr, hmap, hsound, hadmits⟩ := he.admits_iff hm config j
  obtain ⟨ms, hms, hmem⟩ := Result.models_eq_ok hsound
  refine ⟨r, j', hr, ms, hms, fun a => ?_⟩
  rw [hmem, hmap, (VarMap.ofUniverse_spec hm).keys_eq]
  exact and_congr_right (hadmits a)

end Encoder.Means

end Clausify
