import Clausify.Proofs.Records
import Clausify.Proofs.Solving
import Clausify.Proofs.Statement

/-!
# Enumeration of solutions

Each round of an enumeration runs the encoder again, with a clause behind it for each assignment found so far, and has
the result solved.  The models of that result are the models of the encoder that were not found
(`Encoder.Composed.run_excluding`), whatever values the solver chooses for auxiliary indices, so a round finds a
further model or there is none (`Encoder.Composed.finds`).  A loop of such rounds ends with different models: all of
them, or as many as the limit allows (`Finds.solutions_eq_ok`).
-/

namespace Clausify

/-! ### The loop -/

/-- What is looked for in each round. -/
abbrev Search := List Assignment → Journaled (Option Assignment)

/-- The loop of an enumeration from the assignments found so far to those found in the end: below the limit it looks
for one more, until there is none. -/
inductive Enumerates (next : Search) (limit : Option Int) :
    List Assignment → Journal → List Assignment → Journal → Prop where
  | full {found : List Assignment} {j : Journal} {n : Int} :
    limit = some n → n ≤ found.length → Enumerates next limit found j found j
  | exhausted {found : List Assignment} {j j' : Journal} :
    (∀ n, limit = some n → (found.length : Int) < n) → next found j = .ok none j' →
      Enumerates next limit found j found j'
  | more {found found' : List Assignment} {a : Assignment} {j j' j'' : Journal} :
    (∀ n, limit = some n → (found.length : Int) < n) → next found j = .ok (some a) j' →
      Enumerates next limit (found ++ [a]) j' found' j'' → Enumerates next limit found j found' j''

/-- Different ones among the models. -/
structure Found (ms found : List Assignment) : Prop where
  nodup : found.Nodup
  subset : found ⊆ ms

/-- A round finds a model that was not found before, or there is none. -/
def Finds (next : Search) (ms : List Assignment) : Prop :=
  ∀ found j, Found ms found → ∃ o j', next found j = .ok o j' ∧
    match o with
    | some a => a ∈ ms ∧ a ∉ found
    | none => ms ⊆ found

/-- Without a limit all models are found, and with one as many as it allows. -/
def Complete (limit : Option Int) (ms found : List Assignment) : Prop :=
  match limit with
  | none => ms ⊆ found
  | some n => found.length = min (max n 0).toNat ms.length

section

variable {next : Search} {limit : Option Int} {ms found : List Assignment} {a : Assignment}

private theorem Found.length_le (h : Found ms found) : found.length ≤ ms.length :=
  (List.subperm_of_subset h.nodup h.subset).length_le

private theorem Found.length_eq (h : Found ms found) (hms : ms.Nodup) (hall : ms ⊆ found) :
    found.length = ms.length :=
  Nat.le_antisymm h.length_le (List.subperm_of_subset hms hall).length_le

private theorem Found.concat (h : Found ms found) (ha : a ∈ ms) (hn : a ∉ found) : Found ms (found ++ [a]) where
  nodup := by
    rw [List.nodup_append]
    refine ⟨h.nodup, List.nodup_singleton a, fun b hb c hc e => ?_⟩
    rw [List.mem_singleton.1 hc] at e
    exact hn (e ▸ hb)
  subset := by
    intro b hb
    rcases List.mem_append.1 hb with hb | hb
    · exact h.subset hb
    · rw [List.mem_singleton.1 hb]
      exact ha

/-- The rounds are those that the limit leaves, or more than there are models left. -/
def Rounds (limit : Option Int) (ms found : List Assignment) (rounds : Nat) : Prop :=
  match limit with
  | some n => n.toNat = found.length + rounds
  | none => ms.length < found.length + rounds

private theorem Rounds.length_lt {rounds : Nat} (h : Rounds limit ms found (rounds + 1)) :
    ∀ n, limit = some n → (found.length : Int) < n := by
  rintro n rfl
  have h : n.toNat = found.length + (rounds + 1) := h
  omega

private theorem Rounds.concat {rounds : Nat} (h : Rounds limit ms found (rounds + 1)) (a : Assignment) :
    Rounds limit ms (found ++ [a]) rounds := by
  unfold Rounds at h ⊢
  rw [List.length_append, List.length_singleton]
  cases limit with
  | none =>
    dsimp only at h ⊢
    omega
  | some n =>
    dsimp only at h ⊢
    omega

/-- Rounds carry out the loop. -/
private theorem Finds.collect_eq_ok (h : Finds next ms) {rounds : Nat} (hf : Found ms found)
    (hr : Rounds limit ms found rounds) (j : Journal) :
    ∃ found' j', collect next rounds found j = .ok found' j' ∧ Enumerates next limit found j found' j' ∧
      Found ms found' ∧ found'.length ≤ found.length + rounds ∧
      (found'.length < found.length + rounds → ms ⊆ found') := by
  induction rounds generalizing found j with
  | zero =>
    refine ⟨found, j, rfl, ?_, hf, Nat.le_refl _, fun hlt => absurd hlt (Nat.lt_irrefl _)⟩
    cases limit with
    | none =>
      have hlt : ms.length < found.length + 0 := hr
      have := hf.length_le
      omega
    | some n =>
      have hn : n.toNat = found.length + 0 := hr
      exact .full rfl (by omega)
  | succ rounds ih =>
    obtain ⟨o, j₁, hnext, ho⟩ := h found j hf
    cases o with
    | none =>
      have hc : collect next (rounds + 1) found j = .ok found j₁ := bindState_eq_ok.2 ⟨none, j₁, hnext, rfl⟩
      exact ⟨found, j₁, hc, .exhausted hr.length_lt hnext, hf, Nat.le_add_right _ _, fun _ => ho⟩
    | some a =>
      obtain ⟨ha, hn⟩ := ho
      obtain ⟨found', j', hc, he, hf', hle, hlast⟩ := ih (hf.concat ha hn) (hr.concat a) j₁
      rw [List.length_append, List.length_singleton] at hle hlast
      refine ⟨found', j', bindState_eq_ok.2 ⟨some a, j₁, hnext, hc⟩, .more hr.length_lt hnext he, hf', ?_, ?_⟩
      · omega
      · intro hlt
        exact hlast (by omega)

end

/-! ### Enumeration with a limit or without -/

section

variable {α : Type} {solvers : String → Option Solver} {vars : List Value} {encoder : Supplied Int α}
  {config : Config} {ms : List Assignment}

/-- The enumeration is the loop.  Without a limit the first solution tells how many rounds are enough. -/
theorem Finds.solutions_eq_ok (h : Finds (nextSolution solvers vars encoder config) ms) (hms : ms.Nodup)
    (hsize : ∀ a ∈ ms, ms.length ≤ 2 ^ a.size) (limit : Option Int) (j : Journal) :
    ∃ found j', solutions solvers vars encoder limit config j =
        .ok found (j'.notice (.solutionsEnumerated found.length)) ∧
      Enumerates (nextSolution solvers vars encoder config) (limit <|> config.maxSolutions) [] j found j' ∧
      Found ms found ∧ Complete (limit <|> config.maxSolutions) ms found := by
  have hnil : Found ms [] := ⟨List.nodup_nil, List.nil_subset ms⟩
  unfold solutions
  cases limit <|> config.maxSolutions with
  | some n =>
    have hrounds : Rounds (some n) ms [] n.toNat := (Nat.zero_add _).symm
    obtain ⟨found, j', hc, he, hf, hle, hlast⟩ := h.collect_eq_ok hnil hrounds j
    refine ⟨found, j', bindState_eq_ok.2 ⟨found, j', hc, rfl⟩, he, hf, ?_⟩
    show found.length = min (max n 0).toNat ms.length
    rw [List.length_nil] at hle hlast
    have hsub := hf.length_le
    by_cases hlt : found.length < 0 + n.toNat
    · have := hf.length_eq hms (hlast hlt)
      omega
    · omega
  | none =>
    obtain ⟨o, j₁, hnext, ho⟩ := h [] j hnil
    cases o with
    | none =>
      exact ⟨[], j₁, bindState_eq_ok.2 ⟨none, j₁, hnext, rfl⟩, .exhausted (fun n hn => by cases hn) hnext, hnil, ho⟩
    | some a =>
      obtain ⟨ha, hn⟩ := ho
      have hpow := hsize a ha
      have hrounds : Rounds none ms [a] (2 ^ a.size) := by
        show ms.length < 1 + 2 ^ a.size
        omega
      obtain ⟨found, j', hc, he, hf, -, hlast⟩ := h.collect_eq_ok (hnil.concat ha hn) hrounds j₁
      have hsub := hf.length_le
      refine ⟨found, j', bindState_eq_ok.2 ⟨some a, j₁, hnext, bindState_eq_ok.2 ⟨found, j', hc, rfl⟩⟩,
        .more (fun n hn => by cases hn) hnext he, hf, hlast ?_⟩
      rw [List.length_append, List.length_nil, List.length_singleton]
      omega

end

/-! ### One round -/

/-- Different assignments of the same variables differ in one of them. -/
private theorem exists_differs_iff {a b : Assignment} (hk : a.keys = b.keys) :
    (∃ e ∈ a.entries, (b.find? e.1).getD false ≠ e.2) ↔ b ≠ a := by
  constructor
  · rintro ⟨e, he, hne⟩ rfl
    rw [Table.find?_of_mem he] at hne
    exact hne rfl
  · intro hne
    by_contra hall
    refine hne (Table.ext_find? hk.symm fun v hv => ?_)
    obtain ⟨c, hc⟩ := Table.exists_find?_of_contains (Table.contains_iff.2 ⟨v, hv, Value.same_refl v⟩)
    rw [← hk] at hv
    obtain ⟨e, he, rfl⟩ := List.mem_map.1 hv
    have heq : (b.find? e.1).getD false = e.2 := by
      by_contra h
      exact hall ⟨e, he, h⟩
    rw [hc, Option.getD_some] at heq
    rw [hc, heq]
    exact (Table.find?_of_mem he).symm

namespace Encoder.Composed

variable {α : Type} {e : Encoder Int α} {vars : List Value} {embedding : Option (Table Value)} {config : Config}
  {j j' : Journal} {r : Result Int α} {ms found : List Assignment}

/-- With an encoder behind it that means a property, an encoder admits the assignments that it admits and that have
the property. -/
theorem run_andThen (he : e.Composed) (h : run vars (.encoder e) embedding config j = .ok r j') {β : Type}
    {f : Encoder Int β} {P : Env → Prop} (hf : f.Means (Named vars) P) (config' : Config) (k : Journal) :
    ∃ r' k', run vars (.encoder (e.andThen f)) embedding config' k = .ok r' k' ∧ r'.Sound ∧ r'.varMap = r.varMap ∧
      ∀ a : Assignment, a.keys = vars → (r'.Admits a ↔ r.Admits a ∧ P fun v => (a.find? v).getD false) := by
  obtain ⟨m, hm, hrun⟩ := he.runOn_of_run h
  have hof := VarMap.ofUniverse_spec hm
  obtain ⟨t, ht, hft, hr⟩ := hrun config'.checkInvariants config'.traceContexts k
  have hready : (State.initial m config'.checkInvariants config'.traceContexts k).Ready [] (Named vars) :=
    State.ready_initial hof
  obtain ⟨b, u, hu, hemit⟩ := hf t [] (hready.of_frame hft)
  have hframe := hft.trans hemit.frame
  have hboth := runOn_eq_ok (e := e.andThen f) (bindState_eq_ok.2 ⟨r.value, t, ht, hu⟩) hframe.nextVar_le
  have hrun' := runFrom_of_ok hboth hframe hready.sound rfl rfl
  refine ⟨⟨b, u.clauses, m.named, u.nextVar - 1⟩, _, (run_of_universe hm _ config' k).trans hrun',
    hframe.result_sound hof b, ?_, fun a hk => ?_⟩
  · rw [hr]
  · have hk := hk.trans hof.keys_eq.symm
    obtain ⟨σ, hσ⟩ := exists_gives hof.values_nodup hk
    rw [hframe.admits_iff hof hσ, hr, hft.admits_iff hof hσ, hft.solvable_trans hready.sound hemit.frame,
      hemit.solvable_iff, hft.varMap_eq, ← hof.env_eq hk hσ]
    simp only [List.not_mem_nil, false_and, exists_false, false_or]
    rfl

/-- With clauses against assignments behind it, an encoder admits the other assignments that it admits. -/
theorem run_excluding (he : e.Composed) (h : run vars (.encoder e) embedding config j = .ok r j')
    (hfound : ∀ a ∈ found, a.keys = vars) (config' : Config) (k : Journal) :
    ∃ r' k', run vars (.encoder (e.andThen (.each found .exclude))) embedding config' k = .ok r' k' ∧ r'.Sound ∧
      r'.varMap = r.varMap ∧ ∀ a, a.keys = vars → (r'.Admits a ↔ r.Admits a ∧ a ∉ found) := by
  have hmeans : (Encoder.each found .exclude).Means (Named vars)
      fun ρ => ∀ a ∈ found, ∃ e ∈ a.entries, ρ e.1 ≠ e.2 := by
    refine Statement.means (p := .each found .exclude) fun a ha e he => ?_
    exact ⟨e.1, hfound a ha ▸ List.mem_map_of_mem he, Value.same_refl _⟩
  obtain ⟨r', k', hr', hsound, hmap, hadmits⟩ := he.run_andThen h hmeans config' k
  refine ⟨r', k', hr', hsound, hmap, fun a hk => (hadmits a hk).trans (and_congr_right fun _ => ?_)⟩
  constructor
  · intro hall ha
    exact (exists_differs_iff rfl).1 (hall a ha) rfl
  · intro ha b hb
    exact (exists_differs_iff ((hfound b hb).trans hk.symm)).2 fun hab => ha (hab ▸ hb)

theorem result_of_run (he : e.Composed) (h : run vars (.encoder e) embedding config j = .ok r j') :
    r.Sound ∧ r.varMap.keys = vars := by
  obtain ⟨m, hm, hrun⟩ := he.runOn_of_run h
  have hof := VarMap.ofUniverse_spec hm
  obtain ⟨t, -, hft, hr⟩ := hrun true true .empty
  rw [hr]
  exact ⟨hft.result_sound hof r.value, hof.keys_eq⟩

theorem mem_models (he : e.Composed) (h : run vars (.encoder e) embedding config j = .ok r j')
    (hms : r.models = .ok ms) (a : Assignment) : a ∈ ms ↔ a.keys = vars ∧ r.Admits a := by
  obtain ⟨hsound, hkeys⟩ := he.result_of_run h
  obtain ⟨ms', hms', hmem⟩ := Result.models_eq_ok hsound
  rw [hms] at hms'
  cases hms'
  rw [hmem, hkeys]
  rfl

/-- A round finds a further model. -/
theorem finds (he : e.Composed) (h : run vars (.encoder e) none config j = .ok r j') (hms : r.models = .ok ms)
    {solvers : String → Option Solver} {config' : Config} {solver : Solver}
    (hs : solvers config'.solverName = some solver) (hc : solver.Correct) :
    Finds (nextSolution solvers vars (.encoder e) config') ms := by
  have hmem := he.mem_models h hms
  intro found k hf
  obtain ⟨r', k', hr', hsound, hmap, hadmits⟩ :=
    he.run_excluding h (fun a ha => ((hmem a).1 (hf.subset ha)).1) config' k
  have hnonzero : ∀ c ∈ r'.clauses, ∀ l ∈ c, l ≠ 0 := by
    intro c hc l hl
    have := (hsound.clauses_within c hc l hl).1
    omega
  have hlits : r'.literals .empty = .ok [] := rfl
  obtain ⟨o, ho, hsolves⟩ := Result.solve_eq_ok hs hc hnonzero hlits fun l hl => absurd hl List.not_mem_nil
  have hnext : nextSolution solvers vars (.encoder e) config' found k = .ok o k' := by
    refine bindState_eq_ok.2 ⟨_, k, rfl, bindState_eq_ok.2 ⟨r', k', hr', ?_⟩⟩
    rw [ho]
    rfl
  refine ⟨o, k', hnext, ?_⟩
  cases o with
  | none =>
    intro a ha
    by_contra hn
    obtain ⟨hk, hadm⟩ := (hmem a).1 ha
    obtain ⟨τ, -, hτ⟩ := (hadmits a hk).2 ⟨hadm, hn⟩
    exact hsolves ⟨τ, hτ⟩
  | some a =>
    obtain ⟨hk, hadm⟩ := hsolves
    rw [hmap, (he.result_of_run h).2] at hk
    obtain ⟨hadm, hn⟩ := (hadmits a hk).1 hadm
    exact ⟨(hmem a).2 ⟨hk, hadm⟩, hn⟩

/-- With a correct solver an enumeration ends, for any encoder that the library can build and that succeeds on the
universe.  It finds different models: all of them without a limit, and else as many as the limit allows. -/
theorem solutions_of_run (he : e.Composed) (h : run vars (.encoder e) none config j = .ok r j')
    {solvers : String → Option Solver} {config' : Config} {solver : Solver}
    (hs : solvers config'.solverName = some solver) (hc : solver.Correct) (limit : Option Int) (k : Journal) :
    ∃ ms found k', r.models = .ok ms ∧ ms.Nodup ∧
      Enumerates (nextSolution solvers vars (.encoder e) config') (limit <|> config'.maxSolutions) [] k found k' ∧
      solutions solvers vars (.encoder e) limit config' k =
        .ok found (k'.notice (.solutionsEnumerated found.length)) ∧
      found.Nodup ∧ found ⊆ ms ∧
      match limit <|> config'.maxSolutions with
      | none => ms ⊆ found
      | some n => found.length = min (max n 0).toNat ms.length := by
  obtain ⟨hsound, hkeys⟩ := he.result_of_run h
  obtain ⟨ms, hms, -⟩ := Result.models_eq_ok hsound
  have hnodup := Result.models_nodup hms
  have hsize : ∀ a ∈ ms, ms.length ≤ 2 ^ a.size := by
    intro a ha
    have hk : a.keys = r.varMap.keys := ((he.mem_models h hms a).1 ha).1.trans hkeys.symm
    have hlen : a.size = r.varMap.size := by simpa [Table.keys, Table.size] using congrArg List.length hk
    rw [hlen]
    exact Result.length_models_le hms
  obtain ⟨found, k', hsol, henum, hf, hall⟩ := (he.finds h hms hs hc).solutions_eq_ok hnodup hsize limit k
  exact ⟨ms, found, k', hms, hnodup, henum, hsol, hf.nodup, hf.subset, hall⟩

/-- Two of the three models of `a` or `b`, which a temporary that implies `b` stands for where `a` fails. -/
theorem solutions_of_run_with_limit :
    let vars : List Value := [.str "a", .str "b"]
    let e : Encoder Int Unit := .withFresh 1 (.requireAll
      [[.lift (.named (.str "a") true), .temp 0 true], [.temp 0 false, .lift (.named (.str "b") true)]])
    ∃ (r : Result Int Unit) (j : Journal), run vars (.encoder e) none {} .empty = .ok r j ∧
      ∃ found j', solutions Solver.named? vars (.encoder e) (some 2) {} .empty = .ok found j' ∧ found.Nodup ∧
        found.length = 2 := by
  intro vars e
  have he : e.Composed := (composed_requireAll _).withFresh 1
  let table : Table Int := ⟨[(.str "a", 1), (.str "b", 2)], by decide⟩
  obtain ⟨j, hrun⟩ : ∃ j, run vars (.encoder e) none {} .empty = .ok ⟨(), [[1, 3], [-3, 2]], table, 3⟩ j := ⟨_, rfl⟩
  have hsolver : Solver.named? ({} : Config).solverName = some Solver.search := rfl
  obtain ⟨ms, found, k, hms, -, -, hsol, hn, -, hlen⟩ :=
    solutions_of_run he hrun hsolver Solver.search_correct (some 2) .empty
  have hthree : ms.length = 3 := by
    cases hms
    rfl
  refine ⟨_, j, hrun, found, _, hsol, hn, ?_⟩
  dsimp only [Option.instOrElse, OrElse.orElse, Option.orElse] at hlen
  rw [hlen, hthree]
  rfl

end Encoder.Composed

end Clausify
