import Clausify.Proofs.Outcome
import Clausify.Proofs.Renaming

/-!
# Embeddings rename

An embedding that is a bijection from the universe onto the numbers from 1 on is accepted whenever the universe is,
and its map is the one without an embedding, renamed (`VarMap.Embeds.ofUniverse_eq`).  So a run with the embedding and
one without are in lockstep: they fail with the same error or return the same value, and the formula of the first is
that of the second, renamed.  Renamed formulas have the same models (`Result.models_rename`), so the assignments that
the results stand for do not depend on the embedding (`Encoder.Composed.run_embedding`).
-/

namespace Clausify

variable {α : Type}

/-! ### Results -/

/-- A result has the same models after a renaming. -/
theorem Result.models_rename {r r' : Result Int α} {n : Int} {f : Int → Int} (hf : Renaming n f) (hr : r.Sound)
    (hr' : r'.Sound) (hpos : ∀ i ∈ r.varMap.values, 0 < i) (hmap : r'.varMap = r.varMap.map fun _ i => f i)
    (hclauses : r'.clauses = r.clauses.map (List.map (Cnf.rename f))) : r'.models = r.models := by
  have hsat (σ : Int → Bool) : Cnf.Satisfies σ r'.clauses ↔ Cnf.Satisfies (fun i => σ (f i)) r.clauses := by
    rw [hclauses]
    exact Cnf.satisfies_rename (fun c hc l hl => (hr.clauses_within c hc l hl).1) (fun i hi => hf.pos hi) σ
  have hgives (a : Assignment) (σ : Int → Bool) : r'.Gives a σ ↔ r.Gives a fun i => σ (f i) := by
    unfold Gives
    rw [hmap]
    exact List.forall_mem_map
  refine models_congr hr hr' (by rw [hmap, Table.keys_map]) fun a => ⟨?_, ?_⟩
  · rintro ⟨σ, hσ, hs⟩
    exact ⟨fun i => σ (f i), (hgives a σ).1 hσ, (hsat σ).1 hs⟩
  · rintro ⟨σ, hσ, hs⟩
    -- values are carried over along an inverse of the renaming
    have hinv {i : Int} (hi : 0 < i) : Function.invFunOn f {i | 0 < i} (f i) = i := hf.injOn.leftInvOn_invFunOn hi
    refine ⟨fun i => σ (Function.invFunOn f {i | 0 < i} i), (hgives a _).2 fun e he => ?_, (hsat _).2 ?_⟩
    · dsimp only
      rw [hinv (hpos e.2 (List.mem_map_of_mem (f := (·.2)) he))]
      exact hσ e he
    · refine (Cnf.satisfies_congr hr.clauses_within fun i hi => ?_).1 hs
      exact congrArg σ (hinv hi.1).symm

/-! ### Embeddings -/

namespace VarMap

/-- The embedding maps the variables of the universe onto the numbers from 1 on, one to one. -/
structure Embeds (embedding : Table Value) (vars : List Value) : Prop where
  covers : ∀ v ∈ vars, embedding.contains v = true
  covered : ∀ k ∈ embedding.keys, ∃ v ∈ vars, v.same k = true
  values_perm : embedding.values.Perm ((List.range vars.length).map fun (i : Nat) => Value.int (i + 1))

/-- The index that an embedding gives to the variable with a number.  Numbers above the universe stay. -/
def embedded (vars : List Value) (embedding : Table Value) (i : Int) : Int :=
  ((vars[(i - 1).toNat]?.bind embedding.find?).bind index?).getD i

variable {vars : List Value} {embedding : Table Value}

private theorem embedded_of_lt {i : Int} (h : vars.length < i) : embedded vars embedding i = i := by
  have hnone : vars[(i - 1).toNat]? = none := List.getElem?_eq_none (by omega)
  unfold embedded
  rw [hnone]
  rfl

private theorem isNumbering_of_perm {n : Nat} {is : List Int}
    (h : is.Perm ((List.range n).map fun (i : Nat) => (i + 1 : Int))) : isNumbering n is = true := by
  have hsorted : (is.mergeSort).Pairwise fun i j => i ≤ j := by
    refine (List.pairwise_mergeSort (fun i j k hij hjk => ?_) (fun i j => ?_) is).imp of_decide_eq_true
    · exact decide_eq_true (Int.le_trans (of_decide_eq_true hij) (of_decide_eq_true hjk))
    · rw [Bool.or_eq_true, decide_eq_true_iff, decide_eq_true_iff]
      exact Int.le_total i j
  have hnumbers : ((List.range n).map fun (i : Nat) => (i + 1 : Int)).Pairwise fun i j => i ≤ j := by
    rw [List.pairwise_map]
    exact List.pairwise_lt_range.imp fun hij => by omega
  refine decide_eq_true (((List.mergeSort_perm is _).trans h).eq_of_pairwise ?_ hsorted hnumbers)
  exact fun i j _ _ => Int.le_antisymm

private theorem numbered_mem {v : Value} {i : Int} (h : (v, i) ∈ numbered vars 0) :
    ∃ k : Nat, vars[k]? = some v ∧ i = k + 1 := by
  obtain ⟨e, he, heq⟩ := List.mem_map.1 h
  cases heq
  exact ⟨e.2, List.mem_zipIdx_iff_getElem?.1 he, rfl⟩

namespace Embeds

variable (h : Embeds embedding vars)

include h

/-- The embedding gives each of its keys an integer. -/
private theorem index_of_mem {e : Value × Value} (he : e ∈ embedding.entries) : ∃ i, e.2 = .int i := by
  have hmem := h.values_perm.mem_iff.1 (List.mem_map_of_mem (f := (·.2)) he)
  obtain ⟨i, -, hi⟩ := List.mem_map.1 hmem
  exact ⟨i + 1, hi.symm⟩

private theorem indices_eq : indices embedding = .ok (embedding.map fun _ i => (index? i).getD 0) := by
  have hnone : embedding.entries.find? (fun e => (index? e.2).isNone) = none := by
    refine List.find?_eq_none.2 fun e he => ?_
    obtain ⟨i, hi⟩ := h.index_of_mem he
    rw [hi]
    exact Bool.false_ne_true
  unfold indices
  rw [hnone]

/-- The index that a variable gets is the one that the embedding gives to its number. -/
private theorem find?_eq {v : Value} {i : Int} (hv : (v, i) ∈ numbered vars 0) :
    ((embedding.map fun _ i => (index? i).getD 0).find? v).getD i = embedded vars embedding i := by
  obtain ⟨k, hk, rfl⟩ := numbered_mem hv
  obtain ⟨w, hw⟩ := Table.exists_find?_of_contains (h.covers v (List.mem_of_getElem? hk))
  obtain ⟨key, hkey, -⟩ := Table.find?_eq_some_iff.1 hw
  obtain ⟨j, rfl⟩ := h.index_of_mem hkey
  have hnum : ((k : Int) + 1 - 1).toNat = k := by omega
  unfold embedded
  rw [Table.find?_map, hw, hnum, hk, Option.bind_some, hw]
  rfl

/-- With such an embedding a universe is accepted exactly if it is without, and has its indices renamed. -/
theorem ofUniverse_eq :
    ofUniverse vars (some embedding) = (ofUniverse vars none).map (rename (embedded vars embedding)) := by
  cases ht : enumerate vars with
  | error x =>
    unfold ofUniverse
    rw [ht]
    rfl
  | ok t =>
    have hentries := (enumerate_eq_ok.1 ht).2.2
    have hkeys : t.keys = vars := by
      unfold Table.keys
      rw [hentries, numbered_fst]
    have hdomain : (embedding.keys.all t.contains && t.keys.all embedding.contains) = true := by
      rw [Bool.and_eq_true, List.all_eq_true, List.all_eq_true, hkeys]
      refine ⟨fun k hk => ?_, h.covers⟩
      obtain ⟨v, hv, hs⟩ := h.covered k hk
      exact Table.contains_iff.2 ⟨v, hkeys ▸ hv, hs⟩
    have hsize : t.size = vars.length := by
      rw [← hkeys]
      exact (List.length_map _).symm
    have hrange : isNumbering t.size (embedding.map fun _ i => (index? i).getD 0).values = true := by
      have hvalues : (embedding.map fun _ i => (index? i).getD 0).values =
          embedding.values.map fun i => (index? i).getD 0 := by
        simp [Table.values, Table.map]
      rw [hsize, hvalues]
      refine isNumbering_of_perm ((h.values_perm.map _).trans (List.Perm.of_eq ?_))
      rw [List.map_map]
      rfl
    have hmap : (t.map fun v i => ((embedding.map fun _ i => (index? i).getD 0).find? v).getD i) =
        t.map fun _ i => embedded vars embedding i := by
      refine Table.ext (List.map_congr_left fun e he => ?_)
      exact congrArg (Prod.mk e.1) (h.find?_eq (hentries ▸ he))
    have hnone : ofUniverse (I := Int) vars none = .ok (ofTable t) :=
      bind_eq_ok.2 ⟨t, ht, congrArg (fun u => Except.ok (ofTable u)) (Table.map_self t)⟩
    have hsome : ofUniverse (I := Int) vars (some embedding) =
        .ok (ofTable (t.map fun _ i => embedded vars embedding i)) := by
      refine bind_eq_ok.2 ⟨t, ht, ?_⟩
      dsimp only
      rw [hdomain]
      refine bind_eq_ok.2 ⟨_, h.indices_eq, ?_⟩
      rw [hrange]
      exact congrArg (fun u => Except.ok (ofTable u)) hmap
    rw [hnone, hsome]
    rfl

/-- On an accepted universe the embedding permutes the indices. -/
private theorem renames {m : VarMap Int} (hm : ofUniverse vars none = .ok m) :
    Renaming vars.length (embedded vars embedding) := by
  have hvalues : m.named.values = (List.range vars.length).map fun (i : Nat) => (i + 1 : Int) := by
    obtain ⟨t, ht, hm⟩ := bind_eq_ok.1 hm
    cases hm
    show (t.map fun _ i => i).entries.map (·.2) = _
    rw [Table.map_self, (enumerate_eq_ok.1 ht).2.2, numbered_snd, List.range_eq_range']
  have hof : (m.rename (embedded vars embedding)).IsOf vars := by
    have hembedded := h.ofUniverse_eq
    rw [hm] at hembedded
    exact ofUniverse_spec hembedded
  have hrenamed : (m.rename (embedded vars embedding)).named.values =
      m.named.values.map (embedded vars embedding) := by
    simp [VarMap.rename, Table.values, Table.map]
  have hnodup := hof.values_nodup
  have hbetween := hof.values_between
  rw [hrenamed] at hnodup hbetween
  have hmem {i : Int} (hi : 0 < i) (hn : i ≤ vars.length) : i ∈ m.named.values := by
    rw [hvalues]
    exact mem_numbers.2 ⟨hi, hn⟩
  exact {
    between := fun hi hn => hbetween _ (List.mem_map_of_mem (hmem hi hn))
    injective := fun hi hin hj hjn hij => List.inj_on_of_nodup_map hnodup (hmem hi hin) (hmem hj hjn) hij
    above := embedded_of_lt }

end Embeds

end VarMap

/-! ### Runs -/

private theorem State.initial_rename (f : Int → Int) (m : VarMap Int) (ci tc : Bool) (j : Journal) :
    State.initial (m.rename f) ci tc j = (State.initial m ci tc j).rename f := by
  have hsize : (m.rename f).named.size = m.named.size := List.length_map _
  unfold State.initial
  rw [hsize]
  rfl

private theorem State.finished_rename (f : Int → Int) (s : State Int) (named : Int) :
    (s.rename f).finished named = s.finished named := by
  unfold State.finished
  dsimp only
  rw [State.length_clauses_rename]
  rfl

private theorem State.Renamed.checkFinished_eq {n : Int} {f : Int → Int} {s t : State Int} (h : State.Renamed n f s t)
    (b : Bool) : (s.rename f).checkFinished b = s.checkFinished b := by
  rw [h.sound_rename.checkFinished_eq, h.sound.checkFinished_eq]
  rfl

private theorem VarMap.IsOf.initial_renamed {m : VarMap Int} {vars : List Value} {f : Int → Int} (h : m.IsOf vars)
    (h' : (m.rename f).IsOf vars) (ci tc : Bool) (j : Journal) :
    State.Renamed vars.length f (State.initial m ci tc j) (State.initial (m.rename f) ci tc j) where
  eq_rename := State.initial_rename f m ci tc j
  sound := State.initial_sound h ci tc j
  sound_rename := by
    rw [← State.initial_rename]
    exact State.initial_sound h' ci tc j
  lt_nextVar := by
    rw [State.nextVar_initial h]
    omega
  lt_base := by
    show ∀ r ∈ m.scopes, _
    rw [h.scopes_eq]
    exact fun r hr => absurd hr List.not_mem_nil

/-- A program is in lockstep with itself when the indices are renamed. -/
private theorem Program.lockstep_rename {n : Int} {f : Int → Int} (hf : Renaming n f) (p : Program α) :
    Encoder.Lockstep (State.Renamed n f) Eq p.encoder p.encoder := by
  refine (State.bisimilar_rename fun i => hf.above).program (fun s t h => ?_) (fun _ => rfl) p
  rw [h.eq_rename]
  unfold State.snapshot
  rw [State.length_clauses_rename]
  rfl

/-- The results of a run and of one from renamed indices. -/
private theorem Program.runFrom_rename (p : Program α) {vars : List Value} {m : VarMap Int} {f : Int → Int}
    (hf : Renaming vars.length f) (h : m.IsOf vars) (h' : (m.rename f).IsOf vars) (ci tc : Bool) (j : Journal) :
    SameOutcome Eq
      (fun r r' : Result Int α => r'.value = r.value ∧ r'.numVars = r.numVars ∧
        r'.clauses = r.clauses.map (List.map (Cnf.rename f)) ∧ ∃ ms, r.models = .ok ms ∧ r'.models = .ok ms)
      (p.encoder.runFrom (.initial m ci tc j)) (p.encoder.runFrom (.initial (m.rename f) ci tc j)) := by
  have hsame := p.lockstep_rename hf _ _ (h.initial_renamed h' ci tc j)
  have hframe {a t} (ht : p.encoder.runOn (.initial m ci tc j) = .ok a t) := Program.closed_frame.rel_of_ok ht
  have hframe' {a t} (ht : p.encoder.runOn (.initial (m.rename f) ci tc j) = .ok a t) :=
    Program.closed_frame.rel_of_ok ht
  unfold Encoder.runFrom
  generalize p.encoder.runOn (.initial m ci tc j) = q at hsame hframe ⊢
  generalize p.encoder.runOn (.initial (m.rename f) ci tc j) = q' at hsame hframe' ⊢
  cases hsame with
  | error x hend =>
    cases hend.eq_rename
    exact .error x rfl
  | @ok a b t u hab hend =>
    cases hab
    cases hend.eq_rename
    dsimp only [State.initial]
    rw [hend.checkFinished_eq]
    cases t.checkFinished ci with
    | error x => exact .error x rfl
    | ok _ =>
      have hmap : t.varMap = m := (hframe rfl).varMap_eq
      have hsound := (hframe rfl).result_sound h a
      have hsound' := (hframe' rfl).result_sound h' a
      rw [← hmap] at hsound hsound'
      obtain ⟨ms, hms, -⟩ := Result.models_eq_ok hsound
      have hmodels := Result.models_rename hf hsound hsound' (fun i hi => (h.values_between i (hmap ▸ hi)).1) rfl rfl
      refine .ok ⟨rfl, rfl, rfl, ms, hms, hmodels.trans hms⟩ ?_
      have hsize : (m.rename f).named.size = m.named.size := List.length_map _
      rw [State.finished_rename, hsize]

/-- With an embedding that is a bijection an encoder that the library can build fails with the same error as without
one, or returns the same value and leaves the same journal.  The formula is then the one without an embedding, where
the index of each variable of the universe is renamed to the one that the embedding gives it, and has as many
variables and the same models. -/
theorem Encoder.Composed.run_embedding {e : Encoder Int α} (he : e.Composed) {vars : List Value}
    {embedding : Table Value} (h : VarMap.Embeds embedding vars) (config : Config) (j : Journal) :
    SameOutcome Eq
      (fun r r' : Result Int α => r'.value = r.value ∧ r'.numVars = r.numVars ∧
        r'.clauses = r.clauses.map (List.map (Cnf.rename (VarMap.embedded vars embedding))) ∧
        ∃ ms, r.models = .ok ms ∧ r'.models = .ok ms)
      (run vars (.encoder e) none config j) (run vars (.encoder e) (some embedding) config j) := by
  obtain ⟨p, rfl⟩ := he
  have hembedding := h.ofUniverse_eq
  cases hm : VarMap.ofUniverse (I := Int) vars none with
  | error x =>
    rw [hm] at hembedding
    unfold run
    rw [hm, hembedding]
    exact .error x rfl
  | ok m =>
    rw [hm] at hembedding
    rw [run_of_universe hm, run_of_universe hembedding]
    exact p.runFrom_rename (h.renames hm) (VarMap.ofUniverse_spec hm) (VarMap.ofUniverse_spec hembedding) _ _ j

/-- The variables `a`, `b`, `c` get the indices 2, 3, 1 in place of 1, 2, 3.  How many temporaries are taken depends
on the formula so far. -/
theorem Encoder.run_embedding_of_cycle :
    let var (name : String) : Value := .str name
    let vars := [var "a", var "b", var "c"]
    let embedding : Table Value := ⟨[(var "a", .int 2), (var "b", .int 3), (var "c", .int 1)], by decide⟩
    let e : Encoder Int Unit := (Encoder.require [.named (var "a") true, .named (var "b") false]).andThen
      (Encoder.snapshot.bind fun s => .ok (.withFresh s.numClauses
        (.require [.temp 0 true, .lift (.named (var "c") true)])))
    e.Composed ∧ VarMap.Embeds embedding vars ∧ ∃ r r' j,
      run vars (.encoder e) none {} .empty = .ok r j ∧ run vars (.encoder e) (some embedding) {} .empty = .ok r' j ∧
        r.clauses = [[1, -2], [4, 3]] ∧ r'.clauses = [[2, -3], [4, 1]] ∧
        ∃ ms, r.models = .ok ms ∧ r'.models = .ok ms := by
  intro var vars embedding e
  have he : e.Composed := by
    refine (composed_require _).andThen (composed_snapshot.bind fun s f hf => ?_)
    cases hf
    exact (composed_require _).withFresh _
  have hembeds : VarMap.Embeds embedding vars := ⟨by decide, by decide, by decide⟩
  obtain ⟨r, j, hr, hclauses⟩ : ∃ r j, run vars (.encoder e) none {} .empty = .ok r j ∧
      r.clauses = [[1, -2], [4, 3]] := ⟨_, _, rfl, rfl⟩
  refine ⟨he, hembeds, ?_⟩
  have h := he.run_embedding hembeds {} .empty
  rw [hr] at h
  generalize run vars (.encoder e) (some embedding) {} .empty = q at h
  cases h with
  | @ok _ r' _ j' hsame hj =>
    cases hj
    obtain ⟨-, -, hrenamed, hmodels⟩ := hsame
    refine ⟨r, r', j, hr, rfl, hclauses, ?_, hmodels⟩
    rw [hrenamed, hclauses]
    decide

end Clausify
