import Clausify.Proofs.Compilation

/-!
# Unique solutions

The definitions of gates leave the temporaries no choice: two solutions of the clauses of an expression that agree on
the variables in scope agree on all indices (`Expr.determined`).  So the values of the variables that satisfy a list
of expressions extend to the indices of its formula in one way (`Encoder.Determined.run_eq_ok`), and the formula has
as many solutions as there are values of the variables that satisfy the expressions (`compile_extends_uniquely`).
-/

namespace Clausify

/-! ### Formulas that determine indices -/

namespace Cnf

instance (σ : Int → Bool) (l : Int) : Decidable (Holds σ l) := inferInstanceAs (Decidable (_ = _))

instance (σ : Int → Bool) (cs : List (List Int)) : Decidable (Satisfies σ cs) :=
  inferInstanceAs (Decidable (∀ c ∈ cs, ∃ l ∈ c, Holds σ l))

/-- The solutions that agree outside of the indices from `lo` on below `hi` are the same. -/
def Determines (lo hi : Int) (cs : List (List Int)) : Prop :=
  ∀ σ τ, AgreeOff lo hi σ τ → Satisfies σ cs → Satisfies τ cs → τ = σ

private theorem determines_self (n : Int) (cs : List (List Int)) : Determines n n cs :=
  fun _ _ h _ _ => funext fun i => h i (by omega)

/-- What the first formula determines need not be determined by the second. -/
private theorem Determines.append {lo mid hi : Int} {cs ds : List (List Int)} (h : Determines lo mid cs)
    (h' : Determines mid hi ds) (hcs : Within (fun i => i < mid) cs) : Determines lo hi (cs ++ ds) := by
  intro σ τ hστ hσ hτ
  rw [satisfies_append] at hσ hτ
  -- the values of the second solution below `mid`, and those of the first from there on
  have hlow : (fun i => if i < mid then τ i else σ i) = σ := by
    refine h σ _ (fun i hi => ?_) hσ.1 ?_
    · by_cases hmid : i < mid
      · rw [if_pos hmid]
        exact hστ i (by omega)
      · exact if_neg hmid
    · exact (satisfies_congr hcs fun i hi => if_pos hi).2 hτ.1
  refine h' σ τ (fun i hi => ?_) hσ.2 hτ.2
  rcases hi with hmid | hhi
  · rw [← congrFun hlow i]
    exact (if_pos hmid).symm
  · exact hστ i (.inr hhi)

end Cnf

/-! ### Encoders that determine indices -/

namespace Encoder

variable {α ι : Type} {known : Value → Prop} {P : Env → Prop}

/-- The encoder takes no indices. -/
def KeepsCounter (e : Encoder Int α) : Prop := ∀ s a t, e.runOn s = .ok a t → t.nextVar = s.nextVar

private theorem keepsCounter_require (c : List Literal) : (require c : Encoder Int Unit).KeepsCounter := by
  intro s a t h
  have hstep := (runOn_eq_ok_iff.1 h).1
  unfold require at hstep
  dsimp only at hstep
  split at hstep
  · rename_i u hu
    cases hstep
    obtain ⟨d, -, -, rfl⟩ := State.addClause_eq_ok.1 hu
    rfl
  · cases hstep

private theorem keepsCounter_seq {es : List (Encoder Int α)} (h : ∀ e ∈ es, e.KeepsCounter) :
    (seq es).KeepsCounter := by
  have hstep : ∀ s a t, (seq es).step s = .ok a t → t.nextVar = s.nextVar := by
    induction es with
    | nil =>
      intro s a t ht
      cases ht
      rfl
    | cons e es ih =>
      obtain ⟨he, hes⟩ := List.forall_mem_cons.1 h
      intro s a u hu
      rw [seq_cons_step] at hu
      cases hr : e.runOn s with
      | error x t =>
        rw [hr] at hu
        cases hu
      | ok b t =>
        rw [hr] at hu
        have hrest := ih hes t a u hu
        exact hrest.trans (he s b t hr)
  intro s a t ht
  exact hstep s a t (runOn_eq_ok_iff.1 ht).1

private theorem keepsCounter_requireAll (cs : List (List Literal)) :
    (requireAll cs : Encoder Int Unit).KeepsCounter := by
  unfold requireAll
  rw [each_eq_seq]
  exact keepsCounter_seq (List.forall_mem_map.2 fun c _ => keepsCounter_require c)

/-- The clauses that the encoder adds outside of all guards determine the indices that it takes. -/
def Determined (e : Encoder Int α) (known : Value → Prop) : Prop :=
  ∀ s, s.Ready [] known → ∀ a t, e.runOn s = .ok a t → Cnf.Determines s.nextVar t.nextVar (s.newClauses t)

theorem KeepsCounter.determined {e : Encoder Int α} (h : e.KeepsCounter) (known : Value → Prop) :
    e.Determined known := by
  intro s _ a t ht
  rw [h s a t ht]
  exact Cnf.determines_self _ _

/-- The clauses of a part have only indices that were taken before, or that it takes. -/
theorem Determined.seq {es : List (Encoder Int α)} {Ps : List (Env → Prop)}
    (hmeans : List.Forall₂ (fun e P => e.Means known P) es Ps) (h : ∀ e ∈ es, e.Determined known) :
    (Encoder.seq es).Determined known := by
  have hstep : ∀ s, s.Ready [] known → ∀ a t, (Encoder.seq es).step s = .ok a t →
      Cnf.Determines s.nextVar t.nextVar (s.newClauses t) := by
    induction hmeans with
    | nil =>
      intro s _ a t ht
      cases ht
      exact Cnf.determines_self _ _
    | cons he hes ih =>
      obtain ⟨hfirst, hrest⟩ := List.forall_mem_cons.1 h
      intro s hs a u hu
      obtain ⟨b, t, ht, hemits⟩ := he s [] hs
      have hready := hs.of_frame hemits.frame
      rw [seq_cons_step, ht] at hu
      obtain ⟨_, u', hu', hemits'⟩ := Means.seq hes t [] hready
      cases hu.symm.trans (runOn_eq_ok_iff.1 hu').1
      rw [hemits.frame.newClauses_append hemits'.frame]
      refine (hfirst s hs b t ht).append (ih hrest t hready _ _ hu) fun c hc l hl => ?_
      have hmid := hemits.frame.nextVar_le
      rcases hemits.frame.newClauses_within hs.sound c hc l hl with hold | hnew
      · have := (hs.sound.varMap_sound.indices_between _ hold).2
        omega
      · exact hnew.2
  intro s hs a t ht
  exact hstep s hs a t (runOn_eq_ok_iff.1 ht).1

private theorem Determined.each {items : List ι} {f : ι → Encoder Int α} {P : ι → Env → Prop}
    (hmeans : ∀ i ∈ items, (f i).Means known (P i)) (h : ∀ i ∈ items, (f i).Determined known) :
    (Encoder.each items f).Determined known := by
  have hall : List.Forall₂ (fun e P => e.Means known P) (items.map f) (items.map P) := by
    rw [List.forall₂_map_left_iff, List.forall₂_map_right_iff]
    exact List.forall₂_same.2 hmeans
  rw [each_eq_seq]
  exact Determined.seq hall (List.forall_mem_map.2 h)

/-- A scope determines its temporaries if what its body means does. -/
theorem Determined.withFresh {n : Nat} {e : Encoder Int α} (hmeans : e.Means (Inside known n) P)
    (h : e.Determined (Inside known n))
    (hunique : ∀ (ρ : Env) (b b' : Fin n → Bool), P (ρ.inside b) → P (ρ.inside b') → b = b') :
    (Encoder.withFresh n e).Determined known := by
  intro s hs a u hu
  obtain ⟨inner, hinner, hmap, hnext, hclauses, hscope⟩ := exists_enter (α := α) hs n
  obtain ⟨a', t, ht, hemits⟩ := hmeans inner [] hinner
  obtain ⟨u', hu', -, hlast, hadded⟩ := hscope e a' t ht hemits.frame
  cases hu.symm.trans hu'
  have hnew : s.newClauses u = inner.newClauses t := by
    unfold State.newClauses
    rw [hadded, hclauses]
  rw [hnew, hlast]
  have hbody := h inner hinner a t ht
  rw [hnext] at hbody
  -- a solution of the clauses gives the temporaries values that the body accepts
  have haccepts (σ : Int → Bool) (hσ : Cnf.Satisfies σ (inner.newClauses t)) :
      P ((s.varMap.env σ).inside fun i : Fin n => σ (s.nextVar + (i : Nat))) := by
    have hsolvable := (hemits.solvable_iff σ).1 ⟨σ, Cnf.AgreeOff.refl _ _ σ, hσ⟩
    rw [hmap, VarMap.env_extend] at hsolvable
    exact hsolvable.resolve_left fun ⟨g, hg, _⟩ => List.not_mem_nil hg
  intro σ τ hστ hσ hτ
  have henv : s.varMap.env τ = s.varMap.env σ := hs.sound.varMap_sound.env_eq hστ
  have hτ' := haccepts τ hτ
  rw [henv] at hτ'
  have htemps := congrFun (hunique _ _ _ hτ' (haccepts σ hσ))
  refine hbody σ τ (fun i hi => ?_) hσ hτ
  by_cases hlow : i < s.nextVar
  · exact hστ i (.inl hlow)
  · rcases hi with hi | hi
    · have htemp := htemps ⟨(i - s.nextVar).toNat, by omega⟩
      have hsum : s.nextVar + ((i - s.nextVar).toNat : Nat) = i := by omega
      dsimp only at htemp
      rwa [hsum] at htemp
    · exact hστ i (.inr hi)

end Encoder

/-! ### Expressions -/

namespace Expr

variable {known : Value → Prop}

/-- The gates of an expression determine their temporaries. -/
private theorem determined_encodeGates {e : Expr} (h : ∀ name ∈ e.names, known (.str name)) :
    (e.encodeGates (I := Int)).Determined known := by
  refine .withFresh (means_gates h) (Encoder.KeepsCounter.determined ?_ _) fun ρ b b' hb hb' => ?_
  · refine Encoder.keepsCounter_seq fun f hf => ?_
    rcases List.mem_append.1 hf with hf | hf
    · obtain ⟨g, -, rfl⟩ := List.mem_map.1 hf
      exact Encoder.keepsCounter_requireAll g.clauses
    · rw [List.mem_singleton.1 hf]
      exact Encoder.keepsCounter_require _
  · exact (definitions_hold_iff_eq.1 hb.1).trans (definitions_hold_iff_eq.1 hb'.1).symm

private theorem determined_encodeConjunct {e : Expr} (h : ∀ name ∈ e.names, known (.str name)) :
    (e.encodeConjunct (I := Int)).Determined known := by
  unfold encodeConjunct
  split
  · exact (Encoder.keepsCounter_require _).determined known
  · exact determined_encodeGates h

/-- The clauses of an expression determine all indices that they need. -/
theorem determined {e : Expr} (h : ∀ name ∈ e.names, known (.str name)) : (e.encode (I := Int)).Determined known := by
  have hnames : ∀ f ∈ e.normalize.conjuncts, ∀ name ∈ f.names, known (.str name) :=
    fun f hf name hname => h name (names_of_mem_conjuncts hf name hname)
  exact .each (fun f hf => means_encodeConjunct (hnames f hf)) fun f hf => determined_encodeConjunct (hnames f hf)

end Expr

/-! ### Rows of all indices -/

/-- The values that a row gives to the indices from 1 on. -/
def Cnf.ofRow (bs : List Bool) (i : Int) : Bool := decide (0 < i) && bs.getD (i - 1).toNat false

namespace Cnf

private theorem ofRow_succ {bs : List Bool} {k : Nat} (h : k < bs.length) : ofRow bs (k + 1 : Nat) = bs[k] := by
  have hpos : 0 < ((k + 1 : Nat) : Int) := by omega
  have hk : (((k + 1 : Nat) : Int) - 1).toNat = k := by omega
  unfold ofRow
  rw [decide_eq_true hpos, Bool.true_and, hk, List.getD_eq_getElem?_getD, List.getElem?_eq_getElem h,
    Option.getD_some]

private theorem ofRow_of_le {bs : List Bool} {i : Int} (h : i ≤ 0 ∨ bs.length < i) : ofRow bs i = false := by
  unfold ofRow
  rcases h with h | h
  · rw [decide_eq_false (by omega), Bool.false_and]
  · rw [List.getD_eq_getElem?_getD, List.getElem?_eq_none (by omega), Option.getD_none, Bool.and_false]

private theorem ofRow_injective {bs cs : List Bool} (hlength : bs.length = cs.length) (h : ofRow bs = ofRow cs) :
    bs = cs := by
  refine List.ext_getElem hlength fun k hb hc => ?_
  rw [← ofRow_succ hb, ← ofRow_succ hc, h]

/-- The row of the values of the indices from 1 to `n`. -/
def toRow (n : Nat) (τ : Int → Bool) : List Bool := (List.range n).map fun i => τ (i + 1 : Nat)

private theorem length_toRow (n : Nat) (τ : Int → Bool) : (toRow n τ).length = n := by
  unfold toRow
  rw [List.length_map, List.length_range]

private theorem ofRow_toRow {n : Nat} {τ : Int → Bool} {i : Int} (h : 0 < i ∧ i ≤ n) : ofRow (toRow n τ) i = τ i := by
  obtain ⟨k, rfl⟩ : ∃ k : Nat, i = (k + 1 : Nat) := ⟨(i - 1).toNat, by omega⟩
  have hk : k < (toRow n τ).length := by
    rw [length_toRow]
    omega
  rw [ofRow_succ hk]
  simp only [toRow, List.getElem_map, List.getElem_range]

end Cnf

namespace Result

variable {α : Type} {r : Result Int α} {a b : Assignment} {bs cs : List Bool} {τ : Int → Bool}

/-- The row gives values to all indices that satisfy the formula, and the variables those of the assignment. -/
def Completes (r : Result Int α) (a : Assignment) (bs : List Bool) : Prop :=
  bs ∈ rows r.numVars.toNat ∧ r.Gives a (Cnf.ofRow bs) ∧ Cnf.Satisfies (Cnf.ofRow bs) r.clauses

private theorem Completes.admits (h : r.Completes a bs) : r.Admits a := ⟨Cnf.ofRow bs, h.2.1, h.2.2⟩

private theorem Gives.unique (h : r.Gives a τ) (h' : r.Gives b τ) (ha : a.keys = r.varMap.keys)
    (hb : b.keys = r.varMap.keys) :
    a = b := by
  refine Table.ext_find? (ha.trans hb.symm) fun v hv => ?_
  obtain ⟨e, he, rfl⟩ := List.mem_map.1 (ha ▸ hv)
  rw [h e he, h' e he]

private theorem keys_ofRow (h : cs.length = r.varMap.size) : (r.ofRow cs).keys = r.varMap.keys :=
  List.map_fst_zip (by rw [h]; exact Nat.le_of_eq (List.length_map _))

private theorem values_ofRow (h : cs.length = r.varMap.size) : (r.ofRow cs).values = cs :=
  List.map_snd_zip (by rw [h]; exact Nat.le_of_eq (List.length_map _).symm)

/-- Values of indices give the variables those of a row that is read off at their indices. -/
private theorem gives_ofRow (r : Result Int α) (τ : Int → Bool) : r.Gives (r.ofRow (r.varMap.values.map τ)) τ := by
  intro e he
  refine Table.find?_of_mem ?_
  show (e.1, τ e.2) ∈ r.varMap.keys.zip (r.varMap.values.map τ)
  unfold Table.keys Table.values
  rw [List.map_map, List.zip_map', List.mem_map]
  exact ⟨e, he, rfl⟩

/-- The variables have the first indices, and the formula determines the others. -/
structure Defined (r : Result Int α) : Prop extends r.Sound where
  mem_values_iff (i : Int) : i ∈ r.varMap.values ↔ 0 < i ∧ i ≤ r.varMap.size
  size_le : (r.varMap.size : Int) ≤ r.numVars
  determines : Cnf.Determines (r.varMap.size + 1) (r.numVars + 1) r.clauses

private theorem Defined.exists_completes (h : r.Defined) (ha : r.Admits a) : ∃ bs, r.Completes a bs := by
  obtain ⟨τ, hgives, hsat⟩ := ha
  have hsize := h.size_le
  refine ⟨Cnf.toRow r.numVars.toNat τ, ?_, fun e he => ?_, ?_⟩
  · exact mem_rows.2 (Cnf.length_toRow _ τ)
  · have hmem := (h.mem_values_iff e.2).1 (List.mem_map_of_mem (f := (·.2)) he)
    rw [hgives e he, Cnf.ofRow_toRow (by omega)]
  · refine (Cnf.satisfies_congr h.clauses_within fun i hi => ?_).2 hsat
    exact Cnf.ofRow_toRow (by omega)

private theorem Defined.completes_unique (h : r.Defined) (hb : r.Completes a bs) (hc : r.Completes a cs) :
    bs = cs := by
  have hblength := mem_rows.1 hb.1
  have hclength := mem_rows.1 hc.1
  refine Cnf.ofRow_injective (hblength.trans hclength.symm) ?_
  refine h.determines _ _ (fun i hi => ?_) hc.2.2 hb.2.2
  by_cases hout : i ≤ 0 ∨ r.numVars < i
  · rw [Cnf.ofRow_of_le (by omega), Cnf.ofRow_of_le (by omega)]
  · -- below the other indices are those of the variables
    have hmem : i ∈ r.varMap.values := (h.mem_values_iff i).2 (by omega)
    obtain ⟨e, he, rfl⟩ := List.mem_map.1 hmem
    exact Option.some.inj ((hb.2.1 e he).symm.trans (hc.2.1 e he))

/-- A formula that determines all other indices has as many solutions as there are values of the variables that extend
to one. -/
private theorem Defined.count_eq (h : r.Defined) {p : Assignment → Prop} [DecidablePred p]
    (hp : ∀ a : Assignment, a.keys = r.varMap.keys → (r.Admits a ↔ p a)) :
    (rows r.numVars.toNat).countP (fun bs => Cnf.Satisfies (Cnf.ofRow bs) r.clauses) =
      (rows r.varMap.size).countP fun cs => p (r.ofRow cs) := by
  let restrict (bs : List Bool) : List Bool := r.varMap.values.map (Cnf.ofRow bs)
  have hlength (bs : List Bool) : (restrict bs).length = r.varMap.size := by
    show (r.varMap.values.map _).length = _
    unfold Table.values Table.size
    rw [List.length_map, List.length_map]
  have hcompletes : ∀ bs ∈ (rows r.numVars.toNat).filter fun bs => Cnf.Satisfies (Cnf.ofRow bs) r.clauses,
      r.Completes (r.ofRow (restrict bs)) bs := by
    intro bs hbs
    obtain ⟨hrow, hsat⟩ := List.mem_filter.1 hbs
    exact ⟨hrow, r.gives_ofRow _, of_decide_eq_true hsat⟩
  rw [List.countP_eq_length_filter, List.countP_eq_length_filter, ← List.length_map restrict]
  refine List.Perm.length_eq ((List.perm_ext_iff_of_nodup ?_ ((nodup_rows _).filter _)).2 fun cs => ?_)
  · refine ((nodup_rows _).filter _).map_on fun bs hbs cs hcs heq => ?_
    have hsame := hcompletes cs hcs
    rw [← heq] at hsame
    exact h.completes_unique (hcompletes bs hbs) hsame
  · rw [List.mem_map, List.mem_filter, mem_rows, decide_eq_true_iff]
    constructor
    · rintro ⟨bs, hbs, rfl⟩
      exact ⟨hlength bs, (hp _ (keys_ofRow (hlength bs))).1 (hcompletes bs hbs).admits⟩
    · rintro ⟨hcs, hholds⟩
      have hkeys := keys_ofRow hcs
      obtain ⟨bs, hbs⟩ := h.exists_completes ((hp _ hkeys).2 hholds)
      refine ⟨bs, List.mem_filter.2 ⟨hbs.1, decide_eq_true hbs.2.2⟩, ?_⟩
      have hrow := (r.gives_ofRow _).unique hbs.2.1 (keys_ofRow (hlength bs)) hkeys
      rw [← values_ofRow (hlength bs), hrow, values_ofRow hcs]

end Result

/-! ### Runs -/

/-- The values of variables in an assignment, false where they have none. -/
def Assignment.env (a : Assignment) : Env := fun v => (a.find? v).getD false

/-- A run of an encoder that means a property and determines all indices that it takes. -/
theorem Encoder.Determined.run_eq_ok {α : Type} {e : Encoder Int α} {vars : List Value} {P : Env → Prop}
    (h : e.Determined (Named vars)) (hmeans : e.Means (Named vars) P) (hhash : ∀ v ∈ vars, v.hashable = true)
    (hdiff : vars.Pairwise fun v w => v.same w = false) (config : Config) (j : Journal) :
    ∃ r j', run vars (.encoder e) none config j = .ok r j' ∧ r.varMap.entries = VarMap.numbered vars 0 ∧ r.Defined ∧
      ∀ a : Assignment, a.keys = vars → (r.Admits a ↔ P a.env) := by
  obtain ⟨m, hm, -, hentries⟩ := VarMap.ofUniverse_none hhash hdiff
  have hof := VarMap.ofUniverse_spec hm
  obtain ⟨r, j', hrun, hmap, hsound, hadmits⟩ := hmeans.admits_iff hm config j
  refine ⟨r, j', hrun, hmap ▸ hentries, ?_, hadmits⟩
  rw [run_of_universe hm] at hrun
  obtain ⟨t, ht, -, hres, -⟩ := runFrom_eq_ok.1 hrun
  have hfirst := State.nextVar_initial hof config.checkInvariants config.traceContexts j
  have hle := (runOn_eq_ok_iff.1 ht).2
  have hdetermines := h _ (State.ready_initial hof) _ _ ht
  have hlast : r.numVars + 1 = t.nextVar := by
    rw [hres]
    exact Int.sub_add_cancel t.nextVar 1
  have hclauses : r.clauses = t.clauses := by rw [hres]
  have hsize : r.varMap.size = vars.length := by rw [hmap, hof.size_eq]
  have hvalues : r.varMap.values = (List.range vars.length).map fun (i : Nat) => (i + 1 : Int) := by
    unfold Table.values
    rw [hmap, hentries, VarMap.numbered_snd, List.range_eq_range']
  refine { hsound with mem_values_iff := fun i => ?_, size_le := ?_, determines := ?_ }
  · rw [hvalues, hsize]
    exact VarMap.mem_numbers
  · omega
  · rw [hsize, hlast, hclauses, ← hfirst]
    exact hdetermines

/-! ### Compilation -/

/-- Compiling expressions over a universe that has their names, or over their names, succeeds.  Values of the
variables that satisfy the expressions extend to a solution of the formula in exactly one way, so it has as many
solutions as there are such values. -/
theorem compile_extends_uniquely (es : List Expr) (us : Option (List Value))
    (hhash : ∀ vs ∈ us, ∀ v ∈ vs, v.hashable = true)
    (hdiff : ∀ vs ∈ us, vs.Pairwise fun v w => v.same w = false)
    (hnames : ∀ vs ∈ us, ∀ e ∈ es, ∀ name ∈ e.names, .str name ∈ vs) (config : Config) (j : Journal) :
    ∃ (r : Result Int Unit) (j' : Journal),
      compile (es.map fun e => .constraint (.expr e)) us config j = .ok r j' ∧
      r.varMap.keys = us.getD ((sortedNames (es.map .expr)).map .str) ∧ (r.varMap.size : Int) ≤ r.numVars ∧
      (∀ a : Assignment, a.keys = r.varMap.keys → (∀ e ∈ es, e.eval a.env.value = true) → ∃! bs, r.Completes a bs) ∧
      (rows r.numVars.toNat).countP (fun bs => Cnf.Satisfies (Cnf.ofRow bs) r.clauses) =
        (rows r.varMap.size).countP fun bs => ∀ e ∈ es, e.eval (r.ofRow bs).env.value = true := by
  have hmem : ∀ name, name ∈ sortedNames (es.map .expr) ↔ ∃ e ∈ es, name ∈ e.names := by
    intro name
    rw [mem_sortedNames]
    simp only [List.mem_map, exists_exists_and_eq_and]
    rfl
  have hcovered : ∀ vs ∈ us, ∀ name ∈ sortedNames (es.map .expr), .str name ∈ vs := by
    intro vs hvs name hname
    obtain ⟨e, he, hname⟩ := (hmem name).1 hname
    exact hnames vs hvs e he name hname
  obtain ⟨vars, hvars, huniverse, hvars_hash, hvars_diff, hvars_names⟩ :=
    exists_universe (sortedNames_nodup _) hhash hdiff hcovered
  have hcompile := compile_eq_run huniverse config j
  rw [List.map_map] at hcompile
  have hknown : ∀ e ∈ es, ∀ name ∈ e.names, Named vars (.str name) := fun e he name hname =>
    ⟨.str name, hvars_names name ((hmem name).2 ⟨e, he, hname⟩), Value.same_refl _⟩
  have hparts : ∀ c ∈ es.map Constraint.expr, (c.encode (I := Int)).Means (Named vars) fun ρ => c.Holds ρ.value :=
    List.forall_mem_map.2 fun e he => Constraint.means (c := .expr e) (hknown e he)
  have hdetermined : (Encoder.each (es.map .expr) Constraint.encode : Encoder Int Unit).Determined (Named vars) :=
    .each hparts (List.forall_mem_map.2 fun e he => Expr.determined (hknown e he))
  obtain ⟨r, j', hrun, hentries, hdefined, hadmits⟩ :=
    hdetermined.run_eq_ok (.each hparts) hvars_hash hvars_diff config (j.constraints (es.map .expr))
  have hkeys : r.varMap.keys = vars := by
    unfold Table.keys
    rw [hentries, VarMap.numbered_fst]
  have hholds : ∀ a : Assignment, a.keys = r.varMap.keys → (r.Admits a ↔ ∀ e ∈ es, e.eval a.env.value = true) := by
    intro a ha
    rw [hadmits a (ha.trans hkeys), List.forall_mem_map]
    rfl
  refine ⟨r, j', hcompile.trans hrun, hkeys.trans hvars.symm, hdefined.size_le, fun a ha hsat => ?_,
    hdefined.count_eq hholds⟩
  obtain ⟨bs, hbs⟩ := hdefined.exists_completes ((hholds a ha).2 hsat)
  exact ⟨bs, hbs, fun cs hcs => hdefined.completes_unique hcs hbs⟩

/-- A variable of the universe that no expression names doubles the number of solutions, and no temporary does. -/
theorem compile_extends_uniquely_of_free_variable :
    let es : List Expr := [.iff (.lit "a" false) (.or []), .xor (.lit "b" false) (.not (.lit "c" false))]
    let vars : List Value := [.str "c", .int 5, .str "a", .str "b"]
    ∃ (r : Result Int Unit) (j : Journal),
      compile (es.map fun e => .constraint (.expr e)) (some vars) {} .empty = .ok r j ∧
      (∃! bs, r.Completes ⟨vars.zip [true, false, false, true], by decide⟩ bs) ∧
      (rows r.numVars.toNat).countP (fun bs => Cnf.Satisfies (Cnf.ofRow bs) r.clauses) = 4 := by
  intro es vars
  have hhash : ∀ vs ∈ some vars, ∀ v ∈ vs, v.hashable = true := by
    rintro vs ⟨⟩
    decide
  have hdiff : ∀ vs ∈ some vars, vs.Pairwise fun v w => v.same w = false := by
    rintro vs ⟨⟩
    decide
  have hnames : ∀ vs ∈ some vars, ∀ e ∈ es, ∀ name ∈ e.names, .str name ∈ vs := by
    rintro vs ⟨⟩
    decide
  obtain ⟨r, j, hr, hkeys, -, hunique, hcount⟩ := compile_extends_uniquely es (some vars) hhash hdiff hnames {} .empty
  have hkeys : r.varMap.keys = vars := hkeys
  have hsize : r.varMap.size = 4 := by
    have hlength := congrArg List.length hkeys
    rwa [Table.keys, List.length_map] at hlength
  have hrow (bs : List Bool) : (r.ofRow bs).entries = vars.zip bs := congrArg (·.zip bs) hkeys
  refine ⟨r, j, hr, hunique _ hkeys.symm (by decide), ?_⟩
  rw [hcount, hsize]
  unfold Assignment.env Table.find?
  simp only [hrow]
  decide

end Clausify
