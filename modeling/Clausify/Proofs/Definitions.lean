import Clausify.Expr.Encode
import Clausify.Proofs.Gates
import Clausify.Proofs.NormalForm

/-!
# The definitions of gates

The definitions of the gates of an expression hold exactly if each of its temporaries has the value of the
subexpression that it stands for (`Expr.definitions_hold_iff`), so they have one solution for each assignment of the
names.  The output is then the value of the expression, and the encoder of an expression means the expression
(`Expr.means`).
-/

namespace Clausify

/-- The values of names. -/
def Env.value (ρ : Env) (name : String) : Bool := ρ (.str name)

/-- The temporaries from `i` on have the given values. -/
def Reads (ρ : Env) (i : Nat) : List Bool → Prop
  | [] => True
  | b :: bs => ρ (.temp i) = b ∧ Reads ρ (i + 1) bs

private theorem reads_append {ρ : Env} {i : Nat} {bs cs : List Bool} :
    Reads ρ i (bs ++ cs) ↔ Reads ρ i bs ∧ Reads ρ (i + bs.length) cs := by
  induction bs generalizing i with
  | nil => exact (and_iff_right trivial).symm
  | cons b bs ih =>
    have e : i + (b :: bs).length = i + 1 + bs.length := by
      rw [List.length_cons]
      omega
    rw [List.cons_append, Reads, Reads, ih, and_assoc, e]

private theorem reads_iff {ρ : Env} {i : Nat} {bs : List Bool} :
    Reads ρ i bs ↔ ∀ j (h : j < bs.length), ρ (.temp (i + j : Nat)) = bs[j] := by
  induction bs generalizing i with
  | nil => exact ⟨fun _ j h => absurd h (Nat.not_lt_zero j), fun _ => trivial⟩
  | cons b bs ih =>
    rw [Reads, ih]
    constructor
    · rintro ⟨hb, hbs⟩ j hj
      cases j with
      | zero => exact hb
      | succ j =>
        have e : i + (j + 1) = i + 1 + j := by omega
        rw [e]
        exact hbs j (Nat.lt_of_succ_lt_succ hj)
    · intro h
      refine ⟨h 0 (Nat.succ_pos _), fun j hj => ?_⟩
      have e : i + 1 + j = i + (j + 1) := by omega
      rw [e]
      exact h (j + 1) (Nat.succ_lt_succ hj)

/-- Inside a scope, all its temporaries have the given values exactly if these are its values. -/
private theorem reads_inside {ρ : Env} {n : Nat} {b : Fin n → Bool} {bs : List Bool} (hn : bs.length = n) :
    Reads (ρ.inside b) 0 bs ↔ b = fun i => bs.get (i.cast hn.symm) := by
  have htemp : ∀ j (h : j < n), ρ.inside b (.temp (0 + j : Nat)) = b ⟨j, h⟩ := by
    intro j h
    rw [Nat.zero_add]
    exact dif_pos ⟨Int.natCast_nonneg j, Int.ofNat_lt.2 h⟩
  rw [reads_iff]
  constructor
  · intro h
    funext i
    exact (htemp i i.isLt).symm.trans (h i (hn ▸ i.isLt))
  · rintro rfl j hj
    exact htemp j (hn ▸ hj)

namespace Expr

/-! ### The values of gates -/

mutual

/-- The values of the gates of an expression, each before those of its parts. -/
def gateValues (value : String → Bool) : Expr → List Bool
  | lit _ _ => []
  | not e => gateValues value e
  | and es => evalAll value es :: gateValuesAll value es
  | or es => evalAny value es :: gateValuesAll value es
  | imp a b => (!eval value a || eval value b) :: (gateValues value a ++ gateValues value b)
  | iff a b => (eval value a == eval value b) :: (gateValues value a ++ gateValues value b)
  | xor a b => (eval value a != eval value b) :: (gateValues value a ++ gateValues value b)

/-- The values of the gates of expressions in a row. -/
def gateValuesAll (value : String → Bool) : List Expr → List Bool
  | [] => []
  | e :: es => gateValues value e ++ gateValuesAll value es

end

mutual

theorem length_gateValues (value : String → Bool) (e : Expr) : (gateValues value e).length = e.numGates := by
  cases e with
  | lit name negated => rfl
  | not e => exact length_gateValues value e
  | and es | or es => rw [gateValues, numGates, List.length_cons, length_gateValuesAll value es, Nat.add_comm]
  | imp a b | iff a b | xor a b =>
    rw [gateValues, numGates, List.length_cons, List.length_append, length_gateValues value a,
      length_gateValues value b]
    omega

private theorem length_gateValuesAll (value : String → Bool) (es : List Expr) :
    (gateValuesAll value es).length = numGatesAll es := by
  cases es with
  | nil => rfl
  | cons e es =>
    rw [gateValuesAll, numGatesAll, List.length_append, length_gateValues value e, length_gateValuesAll value es]

end

variable {ρ : Env} {n : Nat} {b : Fin n → Bool}

theorem holds_literal (name : String) (negated : Bool) :
    (literal name negated).Holds ρ ↔ (lit name negated).eval ρ.value = true := by
  show ρ.value name = !negated ↔ (ρ.value name != negated) = true
  cases ρ.value name <;> cases negated <;> decide

private theorem holds_temp_iff {ρ : Env} {i : Nat} {v : Bool} (h : ρ (.temp i) = v) :
    (Literal.temp i true).Holds ρ ↔ v = true := by
  show ρ (.temp i) = true ↔ v = true
  rw [h]

/-- Where the temporaries have the values of the gates, the output has the value of the expression. -/
private theorem holds_output {e : Expr} {i : Nat} (h : Reads (ρ.inside b) i (gateValues ρ.value e)) :
    (output i e).Holds (ρ.inside b) ↔ e.eval ρ.value = true := by
  cases e with
  | lit name negated => exact holds_literal name negated
  | not e =>
    have ih := holds_output (e := e) h
    show (output i e).negate.Holds _ ↔ _
    rw [Literal.holds_negate, ih, eval]
    cases e.eval ρ.value <;> decide
  | and es | or es | imp a b | iff a b | xor a b => exact holds_temp_iff h.1

private theorem holds_outputs {es : List Expr} {i : Nat} (h : Reads (ρ.inside b) i (gateValuesAll ρ.value es)) :
    ((∀ l ∈ outputs i es, l.Holds (ρ.inside b)) ↔ evalAll ρ.value es = true) ∧
      ((∃ l ∈ outputs i es, l.Holds (ρ.inside b)) ↔ evalAny ρ.value es = true) := by
  induction es generalizing i with
  | nil => exact ⟨by simp [outputs, evalAll], by simp [outputs, evalAny]⟩
  | cons e es ih =>
    rw [gateValuesAll, reads_append, length_gateValues] at h
    obtain ⟨hall, hany⟩ := ih h.2
    have he := holds_output h.1
    rw [outputs, List.forall_mem_cons, List.exists_mem_cons_iff, he, hall, hany, evalAll, evalAny, Bool.and_eq_true,
      Bool.or_eq_true]
    exact ⟨Iff.rfl, Iff.rfl⟩

/-- A temporary that is defined by a property has its truth value. -/
private theorem temp_iff {ρ : Env} {i : Nat} {p v : Bool} {P : Prop} (h : P ↔ v = p) :
    ((Literal.temp i p).Holds ρ ↔ P) ↔ ρ (.temp i) = v := by
  show (ρ (.temp i) = p ↔ P) ↔ _
  rw [h]
  cases ρ (.temp i) <;> cases v <;> cases p <;> decide

/-- A gate behind those of two parts may rely on the outputs of the parts. -/
private theorem pair_hold_iff {x y : Expr} {i : Nat} {g : Gate Literal} {v : Bool}
    (hx : (∀ f ∈ definitions (i + 1) x, f.Holds (ρ.inside b)) ↔ Reads (ρ.inside b) (i + 1) (gateValues ρ.value x))
    (hy : (∀ f ∈ definitions (i + 1 + x.numGates) y, f.Holds (ρ.inside b)) ↔
      Reads (ρ.inside b) (i + 1 + x.numGates) (gateValues ρ.value y))
    (hg : ((output (i + 1) x).Holds (ρ.inside b) ↔ x.eval ρ.value = true) →
      ((output (i + 1 + x.numGates) y).Holds (ρ.inside b) ↔ y.eval ρ.value = true) →
      (g.Holds (ρ.inside b) ↔ ρ.inside b (.temp i) = v)) :
    (∀ f ∈ definitions (i + 1) x ++ definitions (i + 1 + x.numGates) y ++ [g], f.Holds (ρ.inside b)) ↔
      Reads (ρ.inside b) i (v :: (gateValues ρ.value x ++ gateValues ρ.value y)) := by
  rw [List.forall_mem_append, List.forall_mem_append, hx, hy, List.forall_mem_singleton, Reads, reads_append,
    length_gateValues, and_comm]
  refine and_congr_left ?_
  rintro ⟨hx, hy⟩
  exact hg (holds_output hx) (holds_output hy)

mutual

/-- The definitions say that the temporaries have the values of the gates. -/
theorem definitions_hold_iff (e : Expr) (i : Nat) :
    (∀ g ∈ definitions i e, g.Holds (ρ.inside b)) ↔ Reads (ρ.inside b) i (gateValues ρ.value e) := by
  cases e with
  | lit name negated => exact ⟨fun _ => trivial, fun _ g hg => absurd hg List.not_mem_nil⟩
  | not e => exact definitions_hold_iff e i
  | and es =>
    rw [definitions, List.forall_mem_append, definitionsAll_hold_iff es, List.forall_mem_singleton, gateValues, Reads,
      and_comm]
    exact and_congr_left fun h => temp_iff (holds_outputs h).1
  | or es =>
    rw [definitions, List.forall_mem_append, definitionsAll_hold_iff es, List.forall_mem_singleton, gateValues, Reads,
      and_comm]
    exact and_congr_left fun h => temp_iff (holds_outputs h).2
  | imp x y =>
    refine pair_hold_iff (definitions_hold_iff x _) (definitions_hold_iff y _) fun hx hy => temp_iff ?_
    simp only [List.exists_mem_cons_iff, Literal.holds_negate, hx, hy, List.not_mem_nil, false_and, exists_false,
      or_false]
    cases x.eval ρ.value <;> cases y.eval ρ.value <;> decide
  | iff x y =>
    refine pair_hold_iff (definitions_hold_iff x _) (definitions_hold_iff y _) fun hx hy => temp_iff ?_
    rw [hx, hy]
    cases x.eval ρ.value <;> cases y.eval ρ.value <;> decide
  | xor x y =>
    -- the definition has the temporary negated
    refine pair_hold_iff (definitions_hold_iff x _) (definitions_hold_iff y _) fun hx hy => temp_iff ?_
    rw [hx, hy]
    cases x.eval ρ.value <;> cases y.eval ρ.value <;> decide

private theorem definitionsAll_hold_iff (es : List Expr) (i : Nat) :
    (∀ g ∈ definitionsAll i es, g.Holds (ρ.inside b)) ↔ Reads (ρ.inside b) i (gateValuesAll ρ.value es) := by
  cases es with
  | nil => exact ⟨fun _ => trivial, fun _ g hg => absurd hg List.not_mem_nil⟩
  | cons e es =>
    rw [definitionsAll, List.forall_mem_append, definitions_hold_iff e, definitionsAll_hold_iff es, gateValuesAll,
      reads_append, length_gateValues]

end

/-! ### Variables in scope -/

/-- The names, and the temporaries from `i` on below `i + k`. -/
def Uses (names : List String) (i k : Nat) (v : Value) : Prop :=
  (∃ name ∈ names, v = .outer (.str name)) ∨ ∃ j : Nat, i ≤ j ∧ j < i + k ∧ v = .temp j

private theorem Uses.mono {names names' : List String} {i i' k k' : Nat} {v : Value} (h : Uses names i k v)
    (hnames : ∀ name ∈ names, name ∈ names') (hi : i' ≤ i) (hk : i + k ≤ i' + k') : Uses names' i' k' v := by
  rcases h with ⟨name, hname, rfl⟩ | ⟨j, h1, h2, rfl⟩
  · exact .inl ⟨name, hnames name hname, rfl⟩
  · exact .inr ⟨j, by omega, by omega, rfl⟩

private theorem uses_output (e : Expr) (i : Nat) : Uses e.names i e.numGates (output i e).var := by
  cases e with
  | lit name negated => exact .inl ⟨name, List.mem_singleton_self name, rfl⟩
  | not e =>
    show Uses e.names i e.numGates (output i e).negate.var
    rw [Literal.var_negate]
    exact uses_output e i
  | and es | or es | imp a b | iff a b | xor a b =>
    refine .inr ⟨i, Nat.le_refl i, ?_, rfl⟩
    rw [numGates]
    omega

private theorem uses_outputs (es : List Expr) (i : Nat) :
    ∀ l ∈ outputs i es, Uses (namesAll es) i (numGatesAll es) l.var := by
  induction es generalizing i with
  | nil => exact fun l hl => absurd hl List.not_mem_nil
  | cons e es ih =>
    rw [outputs, List.forall_mem_cons, namesAll, numGatesAll]
    refine ⟨(uses_output e i).mono (fun _ h => List.mem_append_left _ h) (Nat.le_refl i) (by omega), fun l hl => ?_⟩
    exact (ih _ l hl).mono (fun _ h => List.mem_append_right _ h) (by omega) (by omega)

private theorem uses_own {names : List String} {i k : Nat} (hk : 0 < k) (p : Bool) :
    Uses names i k (Literal.temp i p).var :=
  .inr ⟨i, Nat.le_refl i, by omega, rfl⟩

private theorem uses_left {a b : Expr} {i : Nat} {v : Value} (h : Uses a.names (i + 1) a.numGates v) :
    Uses (a.names ++ b.names) i (1 + a.numGates + b.numGates) v :=
  h.mono (fun _ hm => List.mem_append_left _ hm) (by omega) (by omega)

private theorem uses_right {a b : Expr} {i : Nat} {v : Value} (h : Uses b.names (i + 1 + a.numGates) b.numGates v) :
    Uses (a.names ++ b.names) i (1 + a.numGates + b.numGates) v :=
  h.mono (fun _ hm => List.mem_append_right _ hm) (by omega) (by omega)

mutual

/-- The definitions of an expression have its names and its own temporaries. -/
private theorem uses_definitions (e : Expr) (i : Nat) :
    ∀ g ∈ definitions i e, ∀ l ∈ g.literals, Uses e.names i e.numGates l.var := by
  cases e with
  | lit name negated => exact fun g hg => absurd hg List.not_mem_nil
  | not e => exact uses_definitions e i
  | and es | or es =>
    have hparts : ∀ {v},
        Uses (namesAll es) (i + 1) (numGatesAll es) v → Uses (namesAll es) i (1 + numGatesAll es) v :=
      fun h => h.mono (fun _ hm => hm) (by omega) (by omega)
    rw [definitions, List.forall_mem_append, List.forall_mem_singleton, names, numGates]
    refine ⟨fun g hg l hl => hparts (uses_definitionsAll es _ g hg l hl), ?_⟩
    rw [Gate.literals, List.forall_mem_cons]
    exact ⟨uses_own (by omega) true, fun l hl => hparts (uses_outputs es _ l hl)⟩
  | imp a b =>
    have ha := uses_definitions a (i + 1)
    have hb := uses_definitions b (i + 1 + a.numGates)
    rw [definitions, List.forall_mem_append, List.forall_mem_append, List.forall_mem_singleton, names, numGates]
    refine ⟨⟨fun g hg l hl => uses_left (ha g hg l hl), fun g hg l hl => uses_right (hb g hg l hl)⟩, ?_⟩
    rw [Gate.literals, List.forall_mem_cons, List.forall_mem_cons, List.forall_mem_singleton, Literal.var_negate]
    exact ⟨uses_own (by omega) true, uses_left (uses_output a _), uses_right (uses_output b _)⟩
  | iff a b | xor a b =>
    have ha := uses_definitions a (i + 1)
    have hb := uses_definitions b (i + 1 + a.numGates)
    rw [definitions, List.forall_mem_append, List.forall_mem_append, List.forall_mem_singleton, names, numGates]
    refine ⟨⟨fun g hg l hl => uses_left (ha g hg l hl), fun g hg l hl => uses_right (hb g hg l hl)⟩, ?_⟩
    rw [Gate.literals, List.forall_mem_cons, List.forall_mem_cons, List.forall_mem_singleton]
    exact ⟨uses_own (by omega) _, uses_left (uses_output a _), uses_right (uses_output b _)⟩

private theorem uses_definitionsAll (es : List Expr) (i : Nat) :
    ∀ g ∈ definitionsAll i es, ∀ l ∈ g.literals, Uses (namesAll es) i (numGatesAll es) l.var := by
  cases es with
  | nil => exact fun g hg => absurd hg List.not_mem_nil
  | cons e es =>
    rw [definitionsAll, List.forall_mem_append, namesAll, numGatesAll]
    constructor
    · intro g hg l hl
      exact (uses_definitions e i g hg l hl).mono (fun _ hm => List.mem_append_left _ hm) (by omega) (by omega)
    · intro g hg l hl
      exact (uses_definitionsAll es _ g hg l hl).mono (fun _ hm => List.mem_append_right _ hm) (by omega) (by omega)

end

/-! ### Encoders -/

variable {known : Value → Prop}

private theorem inside_of_uses {e : Expr} (h : ∀ name ∈ e.names, known (.str name)) {v : Value}
    (hv : Uses e.names 0 e.numGates v) : Inside known e.numGates v := by
  rcases hv with ⟨name, hname, rfl⟩ | ⟨j, -, hj, rfl⟩
  · exact h name hname
  · exact ⟨Int.natCast_nonneg j, by omega⟩

/-- The definitions of the gates and the clause of the output say that they hold. -/
theorem means_gates {e : Expr} (h : ∀ name ∈ e.names, known (.str name)) :
    (.seq ((definitions 0 e).map Gate.encode ++ [.require [output 0 e]]) : Encoder Int Unit).Means
      (Inside known e.numGates) fun ρ => (∀ g ∈ definitions 0 e, g.Holds ρ) ∧ (output 0 e).Holds ρ := by
  have hgates : List.Forall₂ (fun f P => f.Means (Inside known e.numGates) P)
      (((definitions 0 e).map Gate.encode : List (Encoder Int Unit)) ++ [.require [output 0 e]])
      ((definitions 0 e).map (fun g ρ => g.Holds ρ) ++ [fun ρ => ∃ l ∈ [output 0 e], l.Holds ρ]) := by
    refine List.rel_append ?_ (.cons ?_ .nil)
    · rw [List.forall₂_map_left_iff, List.forall₂_map_right_iff]
      exact List.forall₂_same.2 fun g hg => Gate.means fun l hl => inside_of_uses h (uses_definitions e 0 g hg l hl)
    · refine Encoder.means_require ?_
      rw [List.forall_mem_singleton]
      exact inside_of_uses h (uses_output e 0)
  refine (Encoder.Means.seq hgates).congr fun ρ => ?_
  simp only [List.forall_mem_append, List.forall_mem_map, List.forall_mem_singleton]
  simp only [List.mem_singleton, exists_eq_left]

/-- The definitions leave the temporaries no choice but the values of the gates. -/
theorem definitions_hold_iff_eq {e : Expr} {b : Fin e.numGates → Bool} :
    (∀ g ∈ definitions 0 e, g.Holds (ρ.inside b)) ↔
      b = fun i => (gateValues ρ.value e).get (i.cast (length_gateValues ρ.value e).symm) :=
  (definitions_hold_iff e 0).trans (reads_inside (length_gateValues ρ.value e))

/-- The gates of an expression assert it. -/
private theorem means_encodeGates {e : Expr} (h : ∀ name ∈ e.names, known (.str name)) :
    (e.encodeGates (I := Int)).Means known fun ρ => e.eval ρ.value = true := by
  refine (means_gates h).withFresh.congr fun ρ => ?_
  constructor
  · rintro ⟨b, hb, ho⟩
    exact (holds_output ((definitions_hold_iff e 0).1 hb)).1 ho
  · intro he
    have hb := (definitions_hold_iff_eq (ρ := ρ) (e := e)).2 rfl
    exact ⟨_, hb, (holds_output ((definitions_hold_iff e 0).1 hb)).2 he⟩

private theorem mapM_literal?_eq_some {es : List Expr} {c : List Literal} (h : es.mapM literal? = some c) :
    (∀ l ∈ c, ∃ name ∈ namesAll es, l.var = .str name) ∧
      ((∃ l ∈ c, l.Holds ρ) ↔ evalAny ρ.value es = true) := by
  induction es generalizing c with
  | nil =>
    cases h
    simp [evalAny]
  | cons e es ih =>
    rw [List.mapM_cons] at h
    cases e with
    | lit name negated =>
      cases hd : es.mapM literal? with
      | none =>
        rw [hd] at h
        cases h
      | some d =>
        rw [hd] at h
        cases h
        obtain ⟨hvars, hd⟩ := ih hd
        rw [List.forall_mem_cons, List.exists_mem_cons_iff, hd, holds_literal, namesAll, evalAny, Bool.or_eq_true]
        refine ⟨⟨⟨name, List.mem_cons_self, rfl⟩, fun l hl => ?_⟩, Iff.rfl⟩
        obtain ⟨x, hx, hl⟩ := hvars l hl
        exact ⟨x, List.mem_append_right _ hx, hl⟩
    | _ => cases h

/-- The clause of an expression says the same, with the same names. -/
private theorem clause?_eq_some {e : Expr} {c : List Literal} (h : e.clause? = some c) :
    (∀ l ∈ c, ∃ name ∈ e.names, l.var = .str name) ∧ ((∃ l ∈ c, l.Holds ρ) ↔ e.eval ρ.value = true) := by
  cases e with
  | lit name negated =>
    cases h
    simp only [List.mem_singleton, exists_eq_left, holds_literal]
    exact ⟨fun l hl => ⟨name, List.mem_singleton_self name, hl ▸ rfl⟩, trivial⟩
  | or es => exact mapM_literal?_eq_some h
  | _ => cases h

theorem means_encodeConjunct {e : Expr} (h : ∀ name ∈ e.names, known (.str name)) :
    (e.encodeConjunct (I := Int)).Means known fun ρ => e.eval ρ.value = true := by
  unfold encodeConjunct
  split
  · rename_i c hc
    refine (Encoder.means_require fun l hl => ?_).congr fun ρ => (clause?_eq_some hc).2
    obtain ⟨name, hname, e⟩ := (clause?_eq_some (ρ := fun _ => false) hc).1 l hl
    rw [e]
    exact h name hname
  · exact means_encodeGates h

theorem names_of_mem_conjuncts {e f : Expr} (hf : f ∈ e.normalize.conjuncts) : ∀ name ∈ f.names, name ∈ e.names := by
  intro name hname
  rw [← names_normalize, ← flatMap_names_conjuncts]
  exact List.mem_flatMap.2 ⟨f, hf, hname⟩

/-- The encoder of an expression asserts it. -/
theorem means {e : Expr} (h : ∀ name ∈ e.names, known (.str name)) :
    (e.encode (I := Int)).Means known fun ρ => e.eval ρ.value = true := by
  have hnames : ∀ f ∈ e.normalize.conjuncts, ∀ name ∈ f.names, known (.str name) :=
    fun f hf name hname => h name (names_of_mem_conjuncts hf name hname)
  refine (Encoder.Means.each fun f hf => means_encodeConjunct (hnames f hf)).congr fun ρ => ?_
  rw [← eval_normalize, ← all_conjuncts, List.all_eq_true]

/-- A sound state without guards is one to start in with the names that are in scope. -/
theorem ready_of_names {s : State Int} (hs : s.Sound) (ha : s.assumptions = []) {names : List String}
    (hnames : ∀ name ∈ names, ∃ i, s.varMap.index (.str name) = .ok i) :
    s.Ready [] fun v => ∃ name ∈ names, v = .str name where
  sound := hs
  assumptions_eq := ha
  guards_indexed g hg := absurd hg List.not_mem_nil
  known_indexed := by
    rintro v ⟨name, hname, rfl⟩
    exact hnames name hname

/-- An expression is encoded wherever its own names are in scope. -/
theorem exists_runOn_encode {e : Expr} {s : State Int} {guards : List Literal}
    (hs : s.Ready guards fun v => ∃ name ∈ e.names, v = .str name) : ∃ t, e.encode.runOn s = .ok () t := by
  have hmeans : (e.encode (I := Int)).Means (fun v => ∃ name ∈ e.names, v = .str name)
      fun ρ => e.eval ρ.value = true :=
    means fun name hname => ⟨name, hname, rfl⟩
  obtain ⟨⟨⟩, t, hr, -⟩ := hmeans s guards hs
  exact ⟨t, hr⟩

end Expr

end Clausify
