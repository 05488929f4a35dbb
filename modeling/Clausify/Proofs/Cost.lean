import Clausify.Proofs.Definitions
import Clausify.Proofs.Shape
import Clausify.Proofs.Spending
import Clausify.Proofs.Walk

/-!
# The cost of expressions

Encoding an expression takes at most one temporary for each of its gates and adds at most three clauses for each of
its subexpressions (`Expr.spends_encode`).  A definition has as many clauses as its gate has parts and one more,
except that an equivalence has four; three clauses for each subexpression pay for these and for the clause of the
output.  Normal forms cost no more: moving a negation makes new ones but no gates, and merging takes gates away.
-/

namespace Clausify.Expr

/-! ### Weights -/

mutual

/-- The sum of the weights of all subexpressions: `l` for a literal, `n` for a negation and one for a gate. -/
def weight (l n : Nat) : Expr → Nat
  | lit _ _ => l
  | not e => n + weight l n e
  | and es => 1 + weightAll l n es
  | or es => 1 + weightAll l n es
  | imp a b => 1 + weight l n a + weight l n b
  | iff a b => 1 + weight l n a + weight l n b
  | xor a b => 1 + weight l n a + weight l n b

/-- The sum of the weights of expressions. -/
def weightAll (l n : Nat) : List Expr → Nat
  | [] => 0
  | e :: es => weight l n e + weightAll l n es

end

mutual

private theorem weight_eq_numGates (e : Expr) : weight 0 0 e = e.numGates := by
  cases e with
  | lit name negated => rfl
  | not e => rw [weight, numGates, weight_eq_numGates e, Nat.zero_add]
  | and es | or es => rw [weight, numGates, weightAll_eq_numGatesAll es]
  | imp a b | iff a b | xor a b => rw [weight, numGates, weight_eq_numGates a, weight_eq_numGates b]

private theorem weightAll_eq_numGatesAll (es : List Expr) : weightAll 0 0 es = numGatesAll es := by
  cases es with
  | nil => rfl
  | cons e es => rw [weightAll, numGatesAll, weight_eq_numGates e, weightAll_eq_numGatesAll es]

end

mutual

private theorem weight_eq_length_parts (e : Expr) : weight 1 1 e = e.parts.length := by
  cases e with
  | lit name negated => rfl
  | not e => rw [weight, parts, weight_eq_length_parts e, List.length_cons, Nat.add_comm]
  | and es | or es => rw [weight, parts, weightAll_eq_length_partsAll es, List.length_cons, Nat.add_comm]
  | imp a b | iff a b | xor a b =>
    rw [weight, parts, weight_eq_length_parts a, weight_eq_length_parts b, List.length_cons, List.length_append]
    omega

private theorem weightAll_eq_length_partsAll (es : List Expr) : weightAll 1 1 es = (partsAll es).length := by
  cases es with
  | nil => rfl
  | cons e es =>
    rw [weightAll, partsAll, weight_eq_length_parts e, weightAll_eq_length_partsAll es, List.length_append]

end

section

variable (l n : Nat)

private theorem weightAll_eq_sum (es : List Expr) : weightAll l n es = (es.map (weight l n)).sum := by
  induction es with
  | nil => rfl
  | cons e es ih => rw [weightAll, ih, List.map_cons, List.sum_cons]

/-! ### Normal forms -/

private theorem weightAll_conjuncts_le (e : Expr) : weightAll l n e.conjuncts ≤ weight l n e := by
  cases e with
  | and es => exact Nat.le_add_left _ _
  | _ => exact Nat.le_refl _

private theorem weightAll_disjuncts_le (e : Expr) : weightAll l n e.disjuncts ≤ weight l n e := by
  cases e with
  | or es => exact Nat.le_add_left _ _
  | _ => exact Nat.le_refl _

private theorem weightAll_flatMap_le {f : Expr → List Expr} (h : ∀ e, weightAll l n (f e) ≤ weight l n e)
    (es : List Expr) : weightAll l n (es.flatMap f) ≤ weightAll l n es := by
  induction es with
  | nil => exact Nat.le_refl 0
  | cons e es ih =>
    have he := h e
    rw [weightAll_eq_sum] at he ih ⊢
    rw [List.flatMap_cons, List.map_append, List.sum_append, weightAll]
    omega

/-- Merging adds nothing to the gate in front of the terms. -/
private theorem weight_conj_le (es : List Expr) : weight l n (conj es) ≤ 1 + weightAll l n es := by
  have hterms := weightAll_flatMap_le l n (weightAll_conjuncts_le l n) es
  unfold conj
  split
  · next e he =>
    rw [he, weightAll, weightAll] at hterms
    omega
  · rw [weight]
    omega

private theorem weight_disj_le (es : List Expr) : weight l n (disj es) ≤ 1 + weightAll l n es := by
  have hterms := weightAll_flatMap_le l n (weightAll_disjuncts_le l n) es
  unfold disj
  split
  · next e he =>
    rw [he, weightAll, weightAll] at hterms
    omega
  · rw [weight]
    omega

mutual

/-- The normal form of an expression, or of its negation, is no larger than the expression. -/
private theorem weight_normalizeTo_le (p : Bool) (e : Expr) : weight l n (normalizeTo p e) ≤ weight l n e := by
  cases e with
  | lit name negated => exact Nat.le_refl l
  | not e =>
    have he := weight_normalizeTo_le (!p) e
    rw [normalizeTo, weight]
    omega
  | and es =>
    have hes := weightAll_normalizeAll_le p es
    rw [normalizeTo, weight]
    cases p with
    | true => exact Nat.le_trans (weight_conj_le l n _) (Nat.add_le_add_left hes 1)
    | false => exact Nat.le_trans (weight_disj_le l n _) (Nat.add_le_add_left hes 1)
  | or es =>
    have hes := weightAll_normalizeAll_le p es
    rw [normalizeTo, weight]
    cases p with
    | true => exact Nat.le_trans (weight_disj_le l n _) (Nat.add_le_add_left hes 1)
    | false => exact Nat.le_trans (weight_conj_le l n _) (Nat.add_le_add_left hes 1)
  | imp a b =>
    have ha := weight_normalizeTo_le true a
    have hb := weight_normalizeTo_le p b
    rw [normalizeTo, weight]
    cases p with
    | true =>
      rw [if_pos rfl, weight]
      omega
    | false =>
      have hconj := weight_conj_le l n [normalizeTo true a, normalizeTo false b]
      rw [weightAll, weightAll, weightAll] at hconj
      rw [if_neg Bool.false_ne_true]
      omega
  | iff a b | xor a b =>
    have ha := weight_normalizeTo_le true a
    have hb := weight_normalizeTo_le true b
    rw [normalizeTo, weight]
    split <;> rw [weight] <;> omega

private theorem weightAll_normalizeAll_le (p : Bool) (es : List Expr) :
    weightAll l n (normalizeAll p es) ≤ weightAll l n es := by
  cases es with
  | nil => exact Nat.le_refl 0
  | cons e es => exact Nat.add_le_add (weight_normalizeTo_le p e) (weightAll_normalizeAll_le p es)

end

/-- The conjuncts of a normal form are together no larger than the expression. -/
private theorem weightAll_conjuncts_normalize_le (e : Expr) : weightAll l n e.normalize.conjuncts ≤ weight l n e :=
  Nat.le_trans (weightAll_conjuncts_le l n _) (weight_normalizeTo_le l n true e)

end

/-! ### Clauses of definitions -/

private theorem length_outputs (es : List Expr) (i : Nat) : (outputs i es).length = es.length := by
  induction es generalizing i with
  | nil => rfl
  | cons e es ih => rw [outputs, List.length_cons, ih, List.length_cons]

/-- The clauses of gates. -/
def clausesOf (gs : List (Gate Literal)) : List (List Literal) := gs.flatMap Gate.clauses

private theorem length_clausesOf_append (gs hs : List (Gate Literal)) :
    (clausesOf (gs ++ hs)).length = (clausesOf gs).length + (clausesOf hs).length := by
  unfold clausesOf
  rw [List.flatMap_append, List.length_append]

private theorem length_clausesOf_isAll (v : Literal) (vs : List Literal) :
    (clausesOf [.isAll v vs]).length = vs.length + 1 := by
  simp [clausesOf, Gate.clauses]

private theorem length_clausesOf_isAny (v : Literal) (vs : List Literal) :
    (clausesOf [.isAny v vs]).length = vs.length + 1 := by
  simp [clausesOf, Gate.clauses]

private theorem length_clausesOf_isIff (v a b : Literal) : (clausesOf [.isIff v a b]).length = 4 := rfl

mutual

/-- Three clauses for each subexpression pay for the definitions of the gates, and for one clause more. -/
private theorem length_clausesOf_definitions (e : Expr) (i : Nat) :
    (clausesOf (definitions i e)).length + 1 ≤ 3 * weight 1 1 e := by
  cases e with
  | lit name negated => exact Nat.le_add_left 1 2
  | not e =>
    have he := length_clausesOf_definitions e i
    rw [definitions, weight]
    omega
  | and es =>
    have hes := length_clausesOf_definitionsAll es (i + 1)
    rw [definitions, weight, length_clausesOf_append, length_clausesOf_isAll, length_outputs]
    omega
  | or es =>
    have hes := length_clausesOf_definitionsAll es (i + 1)
    rw [definitions, weight, length_clausesOf_append, length_clausesOf_isAny, length_outputs]
    omega
  | imp a b =>
    have ha := length_clausesOf_definitions a (i + 1)
    have hb := length_clausesOf_definitions b (i + 1 + a.numGates)
    rw [definitions, weight, length_clausesOf_append, length_clausesOf_append, length_clausesOf_isAny]
    simp only [List.length_cons, List.length_nil]
    omega
  | iff a b | xor a b =>
    have ha := length_clausesOf_definitions a (i + 1)
    have hb := length_clausesOf_definitions b (i + 1 + a.numGates)
    rw [definitions, weight, length_clausesOf_append, length_clausesOf_append, length_clausesOf_isIff]
    omega

/-- Among expressions in a row, one clause is left over for each. -/
private theorem length_clausesOf_definitionsAll (es : List Expr) (i : Nat) :
    (clausesOf (definitionsAll i es)).length + es.length ≤ 3 * weightAll 1 1 es := by
  cases es with
  | nil => exact Nat.le_refl 0
  | cons e es =>
    have he := length_clausesOf_definitions e i
    have hes := length_clausesOf_definitionsAll es (i + e.numGates)
    rw [definitionsAll, weightAll, length_clausesOf_append, List.length_cons]
    omega

end

/-! ### Encoders -/

variable {I : Type} [Index I]

/-- The temporaries of a conjunct: a clause has none. -/
def numTemps (e : Expr) : Nat := if e.clause?.isSome then 0 else e.numGates

/-- The clauses of a conjunct: a clause itself, or those of the definitions and that of the output. -/
def numClauses (e : Expr) : Nat := if e.clause?.isSome then 1 else (clausesOf (definitions 0 e)).length + 1

private theorem numTemps_le (e : Expr) : e.numTemps ≤ weight 0 0 e := by
  rw [weight_eq_numGates]
  unfold numTemps
  split
  · exact Nat.zero_le _
  · exact Nat.le_refl _

private theorem numClauses_le (e : Expr) : e.numClauses ≤ 3 * weight 1 1 e := by
  have h := length_clausesOf_definitions e 0
  unfold numClauses
  split
  · omega
  · exact h

private theorem spends_encodeGates (e : Expr) :
    Encoder.Spends (e.encodeGates (I := I)).runOn e.numGates ((clausesOf (definitions 0 e)).length + 1) := by
  have hadds : (Encoder.seq ((definitions 0 e).map Gate.encode ++ [.require [output 0 e]]) : Encoder I Unit).Adds
      ((definitions 0 e).map Gate.clauses ++ [[[output 0 e]]]).flatten := by
    refine Encoder.Adds.seq (List.rel_append ?_ (.cons (Encoder.adds_require _) .nil))
    rw [List.forall₂_map_left_iff, List.forall₂_map_right_iff]
    exact List.forall₂_same.2 fun g _ => rfl
  have hlength : ((definitions 0 e).map Gate.clauses ++ [[[output 0 e]]]).flatten.length =
      (clausesOf (definitions 0 e)).length + 1 := by
    rw [List.flatten_append, List.length_append]
    rfl
  have hbody := Encoder.spends_requireAll (I := I) ((definitions 0 e).map Gate.clauses ++ [[[output 0 e]]]).flatten
  rw [← hadds, hlength] at hbody
  exact hbody.withFresh e.numGates

private theorem spends_encodeConjunct (e : Expr) :
    Encoder.Spends (e.encodeConjunct (I := I)).runOn e.numTemps e.numClauses := by
  unfold encodeConjunct numTemps numClauses
  cases e.clause? with
  | some c => exact Encoder.spends_require c
  | none => exact spends_encodeGates e

private theorem sum_le_weightAll {c l n : Nat} {f : Expr → Nat} (h : ∀ e, f e ≤ c * weight l n e) (es : List Expr) :
    (es.map f).sum ≤ c * weightAll l n es := by
  induction es with
  | nil => exact Nat.zero_le _
  | cons e es ih =>
    have he := h e
    rw [List.map_cons, List.sum_cons, weightAll, Nat.mul_add]
    omega

/-- The temporaries of all conjuncts, and all their clauses. -/
theorem spends_encode (e : Expr) :
    Encoder.Spends (e.encode (I := I)).runOn (e.normalize.conjuncts.map numTemps).sum
      (e.normalize.conjuncts.map numClauses).sum :=
  Encoder.Spends.each fun f _ => spends_encodeConjunct f

private theorem sum_numTemps_le (e : Expr) : (e.normalize.conjuncts.map numTemps).sum ≤ e.numGates := by
  have htemps : ∀ f : Expr, f.numTemps ≤ 1 * weight 0 0 f := fun f => by
    rw [Nat.one_mul]
    exact numTemps_le f
  have hsum := sum_le_weightAll htemps e.normalize.conjuncts
  have hle := weightAll_conjuncts_normalize_le 0 0 e
  rw [weight_eq_numGates] at hle
  omega

private theorem sum_numClauses_le (e : Expr) : (e.normalize.conjuncts.map numClauses).sum ≤ 3 * e.parts.length := by
  have hsum := sum_le_weightAll numClauses_le e.normalize.conjuncts
  have hle := weightAll_conjuncts_normalize_le 1 1 e
  rw [weight_eq_length_parts] at hle
  omega

private theorem numGates_normalize_le (e : Expr) : e.normalize.numGates ≤ e.numGates := by
  have hle := weight_normalizeTo_le 0 0 true e
  rw [weight_eq_numGates, weight_eq_numGates] at hle
  exact hle

/-- The conjuncts of an expression in its normal form are encoded one after the other, each like an expression.  In
every state this takes at most one temporary for each gate and adds at most three clauses for each subexpression.  How
many is fixed by the expression, and where its names are in scope the encoder succeeds with them.  The gates of a
conjunct are encoded with the definitions that a walk finds which is given the temporaries of the scope: none is
missing, none is left over, and each is defined once. -/
theorem encode_costs (e : Expr) :
    let n := (e.normalize.conjuncts.map numTemps).sum
    let k := (e.normalize.conjuncts.map numClauses).sum
    (e.encode (I := I)).runOn = (Encoder.each e.normalize.conjuncts encode).runOn ∧
      (n ≤ e.numGates ∧ k ≤ 3 * e.parts.length ∧ e.normalize.numGates ≤ e.numGates) ∧
      Encoder.Spends (e.encode (I := I)).runOn n k ∧
      (∀ (s : State Int) (guards : List Literal), s.Ready guards (fun v => ∃ name ∈ e.names, v = .str name) →
        ∃ t, e.encode.runOn s = .ok () t ∧ t.nextVar = s.nextVar + n ∧
          t.clauses.length = s.clauses.length + k) ∧
      ∀ f : Expr, ∃ out gates, (walk f).run (Scope.temps ⟨f.numGates⟩) = some ((out, gates), []) ∧
        f.encodeGates (I := I) = .withFresh f.numGates (.seq (gates.map Gate.encode ++ [.require [out]])) ∧
        Gate.DefineOnce gates (Scope.temps ⟨f.numGates⟩) := by
  intro n k
  refine ⟨runOn_encode e, ⟨sum_numTemps_le e, sum_numClauses_le e, numGates_normalize_le e⟩, spends_encode e,
    fun s guards hs => ?_, fun f => ?_⟩
  · obtain ⟨t, ht⟩ := exists_runOn_encode hs
    have hspent := spends_encode (I := Int) e s
    rw [ht] at hspent
    exact ⟨t, ht, hspent⟩
  · have hwalk := walk_eq_some f 0 []
    rw [List.append_nil] at hwalk
    rw [Scope.temps_eq_tempsFrom]
    exact ⟨output 0 f, definitions 0 f, hwalk, rfl, defineOnce_definitions f 0⟩

/-- A clause, and an equivalence with a negated conjunction.  The clause is added as it is; the other conjunct takes
two temporaries and adds three clauses for the disjunction in its normal form, four for the equivalence and that of
the output. -/
theorem encode_costs_of_negated_part :
    let f : Expr := iff (lit "c" false) (not (and [lit "a" false, lit "b" false]))
    let e : Expr := and [or [lit "a" false, lit "b" false], f]
    let s : State Int :=
      { nextVar := 4, clauses := [], varMap := .ofTable ⟨[(.str "a", 1), (.str "b", 2), (.str "c", 3)], by decide⟩
        assumptions := [], contexts := [], checkInvariants := true, traceContexts := true, journal := .empty }
    e.numGates = 4 ∧ e.parts.length = 10 ∧
      ∃ t, e.encode.runOn s = .ok () t ∧ t.nextVar = 6 ∧ t.clauses.length = 9 := by
  intro f e s
  have hindexed : ∀ name ∈ e.names, ∃ i, s.varMap.index (.str name) = .ok i := by
    show ∀ name ∈ ["a", "b", "c", "a", "b"], _
    simp only [List.forall_mem_cons]
    exact ⟨⟨1, rfl⟩, ⟨2, rfl⟩, ⟨3, rfl⟩, ⟨1, rfl⟩, ⟨2, rfl⟩, fun name h => absurd h List.not_mem_nil⟩
  have hready := ready_of_names ((State.check_eq_ok_iff (by decide)).1 rfl) rfl hindexed
  obtain ⟨-, -, -, hrun, -⟩ := encode_costs (I := Int) e
  obtain ⟨t, ht, hn, hk⟩ := hrun s [] hready
  exact ⟨rfl, rfl, t, ht, hn, hk⟩

end Clausify.Expr
