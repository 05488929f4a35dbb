import Clausify.Compile
import Clausify.Proofs.Counting
import Clausify.Proofs.Definitions
import Clausify.Proofs.Outcome

/-!
# Compilation is correct

Compiling constraints succeeds over every universe of different names that has theirs, and over their own names.
Values of the names extend to a solution of the formula exactly if they satisfy all constraints
(`compile_solvable_iff`).
-/

namespace Clausify

namespace Constraint

/-- What a constraint says about the values of names. -/
def Holds (value : String → Bool) : Constraint → Prop
  | expr e => e.eval value = true
  | atLeast k names => k ≤ names.countP value
  | atMost k names => names.countP value ≤ k
  | exactly k names => names.countP value = k

private theorem holds_congr {value value' : String → Bool} {c : Constraint}
    (h : ∀ name ∈ c.names, value name = value' name) : c.Holds value ↔ c.Holds value' := by
  have hcount : ∀ names : List String, (∀ name ∈ names, value name = value' name) →
      names.countP value = names.countP value' := fun names h => List.countP_congr fun name hm => by rw [h name hm]
  cases c with
  | expr e => rw [Holds, Holds, Expr.eval_congr e h]
  | atLeast k names | atMost k names | exactly k names => rw [Holds, Holds, hcount names h]

variable {known : Value → Prop}

private theorem count_literals {ρ : Env} (names : List String) :
    count ρ (names.map (Expr.literal · false)) = names.countP ρ.value := by
  unfold count
  rw [List.countP_map]
  refine List.countP_congr fun name _ => ?_
  rw [Function.comp_apply, decide_eq_true_iff, Expr.holds_literal, Expr.eval, Bool.bne_false]

/-- The encoder of a constraint asserts it. -/
theorem means {c : Constraint} (h : ∀ name ∈ c.names, known (.str name)) :
    (c.encode (I := Int)).Means known fun ρ => c.Holds ρ.value := by
  have hlits : ∀ names : List String, (∀ name ∈ names, known (.str name)) →
      ∀ l ∈ names.map (Expr.literal · false), known l.var := fun names h => List.forall_mem_map.2 h
  cases c with
  | expr e => exact Expr.means h
  | atLeast k names =>
    refine (Cardinality.means (c := .atLeast _ (k : Int)) (hlits names h)).congr fun ρ => ?_
    show (k : Int) ≤ count ρ _ ↔ _
    rw [count_literals, Int.ofNat_le]
    rfl
  | atMost k names =>
    refine (Cardinality.means (c := .atMost _ (k : Int)) (hlits names h)).congr fun ρ => ?_
    show (count ρ _ : Int) ≤ k ↔ _
    rw [count_literals, Int.ofNat_le]
    rfl
  | exactly k names =>
    refine (Cardinality.means (c := .exactly _ (k : Int)) (hlits names h)).congr fun ρ => ?_
    show (count ρ _ : Int) = k ↔ _
    rw [count_literals, Int.ofNat_inj]
    rfl

end Constraint

/-! ### Universes of names -/

theorem sortedNames_nodup (cs : List Constraint) : (sortedNames cs).Nodup :=
  (List.mergeSort_perm _ _).nodup_iff.2 (nodup_eraseDups _)

theorem mem_sortedNames {cs : List Constraint} {name : String} :
    name ∈ sortedNames cs ↔ ∃ c ∈ cs, name ∈ c.names := by
  unfold sortedNames
  rw [List.mem_mergeSort, List.mem_eraseDups, List.mem_flatMap]

/-- A universe is accepted if it has all names in question. -/
private theorem universeFor_of_mem {names : List String} {us : Option (List Value)}
    (hhash : ∀ vs ∈ us, ∀ v ∈ vs, v.hashable = true) (h : ∀ vs ∈ us, ∀ name ∈ names, .str name ∈ vs) :
    universeFor names us = .ok (us.getD (names.map .str)) := by
  cases us with
  | none => rfl
  | some vs =>
    have hall : vs.all Value.hashable = true := List.all_eq_true.2 (hhash vs rfl)
    have hmissing : (names.filter fun name => !vs.contains (.str name)) = [] := by
      rw [List.filter_eq_nil_iff]
      intro name hname
      have := h vs rfl name hname
      simpa using this
    unfold universeFor
    dsimp only
    rw [hall, hmissing]
    rfl

/-- A universe of names is accepted if it has all names in question. -/
private theorem universeFor_eq_ok {names : List String} {us : Option (List String)}
    (h : ∀ vs ∈ us, ∀ name ∈ names, name ∈ vs) :
    universeFor names (us.map (·.map .str)) = .ok ((us.getD names).map .str) := by
  have hus : (us.map (·.map Value.str)).getD (names.map .str) = (us.getD names).map .str := by cases us <;> rfl
  rw [← hus]
  refine universeFor_of_mem ?_ ?_
  · intro vs hvs v hv
    obtain ⟨ws, -, rfl⟩ := Option.map_eq_some_iff.1 hvs
    obtain ⟨name, -, rfl⟩ := List.mem_map.1 hv
    rfl
  · intro vs hvs name hname
    obtain ⟨ws, hws, rfl⟩ := Option.map_eq_some_iff.1 hvs
    exact List.mem_map_of_mem (h ws hws name hname)

private theorem same_str_iff {v : Value} {name : String} : v.same (.str name) = true ↔ v = .str name := by
  rw [Value.same_iff]
  cases v with
  | float bits =>
    simp only [Value.canon]
    split <;> simp
  | _ => simp [Value.canon]

private theorem hashable_names (names : List String) : ∀ v ∈ names.map Value.str, v.hashable = true :=
  List.forall_mem_map.2 fun _ _ => rfl

private theorem different_names {names : List String} (h : names.Nodup) :
    (names.map Value.str).Pairwise fun v w => v.same w = false := by
  rw [List.pairwise_map]
  refine h.imp fun {a b} hab => ?_
  rw [Bool.eq_false_iff]
  intro hs
  exact hab (Value.str.inj (same_str_iff.1 hs))

/-- The universe to compile over, given or made of the names in question, has different variables, and all names. -/
theorem exists_universe {names : List String} {us : Option (List Value)} (hnodup : names.Nodup)
    (hhash : ∀ vs ∈ us, ∀ v ∈ vs, v.hashable = true)
    (hdiff : ∀ vs ∈ us, vs.Pairwise fun v w => v.same w = false)
    (h : ∀ vs ∈ us, ∀ name ∈ names, .str name ∈ vs) :
    ∃ vars, us.getD (names.map .str) = vars ∧ universeFor names us = .ok vars ∧ (∀ v ∈ vars, v.hashable = true) ∧
      (vars.Pairwise fun v w => v.same w = false) ∧ ∀ name ∈ names, .str name ∈ vars := by
  refine ⟨_, rfl, universeFor_of_mem hhash h, ?_⟩
  cases us with
  | none => exact ⟨hashable_names names, different_names hnodup, fun _ => List.mem_map_of_mem⟩
  | some vs => exact ⟨hhash vs rfl, hdiff vs rfl, h vs rfl⟩

theorem compile_eq_run {cs : List Constraint} {us : Option (List Value)} {vars : List Value}
    (h : universeFor (sortedNames cs) us = .ok vars) (config : Config) (j : Journal) :
    compile (I := Int) (cs.map .constraint) us config j =
      run vars (.encoder (.each cs Constraint.encode)) none config (j.constraints cs) := by
  have hget : (cs.map Candidate.constraint).mapM Candidate.get = .ok cs := by
    rw [mapM_eq_ok, List.forall₂_map_left_iff]
    exact List.forall₂_same.2 fun _ _ => rfl
  unfold compile
  rw [hget]
  show EStateM.bind (Journaled.ofExcept (universeFor (sortedNames cs) us)) _ j = _
  rw [h]
  rfl

/-! ### Formulas over names -/

/-- The environment that values of names give. -/
def Env.ofNames (value : String → Bool) : Env
  | .str name => value name
  | _ => false

private theorem VarMap.IsOf.exists_entry {m : VarMap Int} {names : List String} (h : m.IsOf (names.map .str))
    {name : String} (hname : name ∈ names) : ∃ i, (.str name, i) ∈ m.named.entries ∧ m.index (.str name) = .ok i := by
  have hmem : Value.str name ∈ m.named.keys := h.keys_eq ▸ List.mem_map_of_mem hname
  obtain ⟨⟨v, i⟩, hi, e⟩ := List.mem_map.1 hmem
  cases e
  refine ⟨i, hi, ?_⟩
  have hhash : (Value.str name).hashable = true := rfl
  rw [h.index_eq, namedIndex, if_pos hhash, Table.find?_of_mem hi]

/-- A run of an encoder that means a property of the values of names succeeds, and values of the names extend to a
solution of its formula exactly if they have the property. -/
private theorem Encoder.Means.solvable_iff_of_names {α : Type} {e : Encoder Int α} {P : (String → Bool) → Prop}
    {names : List String} (he : e.Means (Named (names.map .str)) fun ρ => P ρ.value)
    (hP : ∀ value value' : String → Bool, (∀ name ∈ names, value name = value' name) → (P value ↔ P value'))
    (hnodup : names.Nodup) (config : Config) (j : Journal) :
    ∃ (r : Result Int α) (j' : Journal), run (names.map .str) (.encoder e) none config j = .ok r j' ∧ r.Sound ∧
      r.varMap.entries = VarMap.numbered (names.map .str) 0 ∧
      ∀ value : String → Bool,
        (∃ τ : Int → Bool, (∀ name i, r.varMap.find? (.str name) = some i → τ i = value name) ∧
          Cnf.Satisfies τ r.clauses) ↔ P value := by
  obtain ⟨m, hm, -, hentries⟩ := VarMap.ofUniverse_none (hashable_names names) (different_names hnodup)
  have hof := VarMap.ofUniverse_spec hm
  obtain ⟨r, j', hr, hmap, hsound, hsat⟩ := he.run_eq_ok hm config j
  refine ⟨r, j', hr, hsound, hmap ▸ hentries, fun value => ?_⟩
  rw [hmap]
  obtain ⟨σ, hσ⟩ := exists_values hof.values_nodup (Env.ofNames value)
  have hvalue : ∀ name ∈ names, value name = (m.env σ).value name := by
    intro name hname
    obtain ⟨i, hi, hindex⟩ := hof.exists_entry hname
    exact (hσ _ hi).symm.trans (VarMap.env_of_index hindex σ).symm
  -- every index of the universe belongs to a name, so the values of the names determine those of the indices
  rw [hP _ _ hvalue, ← hsat σ]
  refine exists_congr fun τ => and_congr_left fun _ => ?_
  constructor
  · intro h i hi
    obtain ⟨⟨v, i⟩, hv, rfl⟩ := List.mem_map.1 hi
    have hkey : v ∈ names.map Value.str := hof.keys_eq ▸ List.mem_map_of_mem (f := (·.1)) hv
    obtain ⟨name, -, rfl⟩ := List.mem_map.1 hkey
    exact (h name i (Table.find?_of_mem hv)).trans (hσ _ hv).symm
  · intro h name i hi
    obtain ⟨k, hk, hs⟩ := Table.find?_eq_some_iff.1 hi
    cases same_str_iff.1 hs
    exact (h i (List.mem_map_of_mem (f := (·.2)) hk)).trans (hσ _ hk)

/-- Compiling constraints over a universe of different names that has theirs, or over their own names, succeeds, and
values of the names extend to a solution of the formula exactly if they satisfy all constraints. -/
theorem compile_solvable_iff (cs : List Constraint) (us : Option (List String)) (hnodup : ∀ vs ∈ us, vs.Nodup)
    (hnames : ∀ vs ∈ us, ∀ c ∈ cs, ∀ name ∈ c.names, name ∈ vs) (config : Config) (j : Journal) :
    ∃ (r : Result Int Unit) (j' : Journal),
      compile (cs.map .constraint) (us.map (·.map .str)) config j = .ok r j' ∧ r.Sound ∧
      r.varMap.entries = VarMap.numbered ((us.getD (sortedNames cs)).map .str) 0 ∧
      ∀ value : String → Bool,
        (∃ τ : Int → Bool, (∀ name i, r.varMap.find? (.str name) = some i → τ i = value name) ∧
          Cnf.Satisfies τ r.clauses) ↔ ∀ c ∈ cs, c.Holds value := by
  have hsorted : ∀ vs ∈ us, ∀ name ∈ sortedNames cs, name ∈ vs := by
    intro vs hvs name hname
    obtain ⟨c, hc, hname⟩ := mem_sortedNames.1 hname
    exact hnames vs hvs c hc name hname
  rw [compile_eq_run (universeFor_eq_ok hsorted)]
  have hall : ∀ c ∈ cs, ∀ name ∈ c.names, name ∈ us.getD (sortedNames cs) := by
    intro c hc name hname
    cases us with
    | none => exact mem_sortedNames.2 ⟨c, hc, hname⟩
    | some vs => exact hnames vs rfl c hc name hname
  have hdiff : (us.getD (sortedNames cs)).Nodup := by
    cases us with
    | none => exact sortedNames_nodup cs
    | some vs => exact hnodup vs rfl
  have hmeans : (Encoder.each cs Constraint.encode : Encoder Int Unit).Means
      (Named ((us.getD (sortedNames cs)).map .str)) fun ρ => ∀ c ∈ cs, c.Holds ρ.value :=
    Encoder.Means.each fun c hc => Constraint.means fun name hname =>
      ⟨.str name, List.mem_map_of_mem (hall c hc name hname), Value.same_refl _⟩
  refine hmeans.solvable_iff_of_names (fun value value' h => ?_) hdiff config _
  exact forall₂_congr fun c hc => Constraint.holds_congr fun name hname => h name (hall c hc name hname)

/-- A name that is equivalent to no alternative at all is false. -/
theorem compile_solvable_iff_of_empty_disjunction :
    let cs : List Constraint := [.expr (.iff (.lit "a" false) (.or [])), .atLeast 1 ["b", "c"]]
    ∃ (r : Result Int Unit) (j : Journal),
      compile (cs.map .constraint) (some [.str "c", .str "a", .str "b"]) {} .empty = .ok r j ∧
      ∀ value : String → Bool,
        (∃ τ : Int → Bool, (∀ name i, r.varMap.find? (.str name) = some i → τ i = value name) ∧
          Cnf.Satisfies τ r.clauses) ↔ value "a" = false ∧ (value "b" = true ∨ value "c" = true) := by
  intro cs
  have hnodup : ∀ vs ∈ some ["c", "a", "b"], vs.Nodup := by simp
  have hnames : ∀ vs ∈ some ["c", "a", "b"], ∀ c ∈ cs, ∀ name ∈ c.names, name ∈ vs := by
    simp [cs, Constraint.names, Expr.names, Expr.namesAll]
  obtain ⟨r, j, hr, -, -, hiff⟩ := compile_solvable_iff cs _ hnodup hnames {} .empty
  refine ⟨r, j, hr, fun value => (hiff value).trans ?_⟩
  have hcount : 1 ≤ ["b", "c"].countP value ↔ value "b" = true ∨ value "c" = true := by
    simp only [List.one_le_countP_iff, List.exists_mem_cons_iff, List.not_mem_nil, false_and, exists_false, or_false]
  simp [cs, Constraint.Holds, Expr.eval, Expr.evalAny, hcount]

end Clausify
