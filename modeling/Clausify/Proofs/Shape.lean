import Clausify.Expr.Encode
import Clausify.Proofs.Laws

/-!
# The shape of normal forms

In a normal form no negation is left, neither a conjunction below a conjunction nor a disjunction below a disjunction,
and no conjunction or disjunction of one term, at any depth (`Expr.IsNormal`).  Merging needs one level only: terms
that are normal themselves have no terms of their own kind below them, and a single term that takes the place of a
conjunction is none.  An expression of this shape is its own normal form, so normalizing again changes nothing, and
the conjuncts of an expression are encoded like expressions of their own.
-/

namespace Clausify.Expr

/-! ### Subexpressions -/

mutual

/-- The subexpressions of an expression at any depth, itself first. -/
def parts : Expr → List Expr
  | lit name negated => [lit name negated]
  | not e => not e :: parts e
  | and es => and es :: partsAll es
  | or es => or es :: partsAll es
  | imp a b => imp a b :: (parts a ++ parts b)
  | iff a b => iff a b :: (parts a ++ parts b)
  | xor a b => xor a b :: (parts a ++ parts b)

/-- The subexpressions of expressions. -/
def partsAll : List Expr → List Expr
  | [] => []
  | e :: es => parts e ++ partsAll es

end

private theorem partsAll_eq_flatMap (es : List Expr) : partsAll es = es.flatMap parts := by
  induction es with
  | nil => rfl
  | cons e es ih => rw [partsAll, ih, List.flatMap_cons]

private theorem mem_parts_self (e : Expr) : e ∈ e.parts := by
  cases e <;> exact List.mem_cons_self

/-! ### Shape -/

def isAnd : Expr → Bool
  | and _ => true
  | _ => false

def isOr : Expr → Bool
  | or _ => true
  | _ => false

/-- No negation, no conjunction or disjunction of one term, and none with a term of its own kind. -/
def Tidy : Expr → Prop
  | not _ => False
  | and es => es.length ≠ 1 ∧ ∀ e ∈ es, e.isAnd = false
  | or es => es.length ≠ 1 ∧ ∀ e ∈ es, e.isOr = false
  | _ => True

/-- All subexpressions have the shape of a normal form. -/
def IsNormal (e : Expr) : Prop :=
  ∀ f ∈ e.parts, f.Tidy

instance : (e : Expr) → Decidable e.Tidy
  | lit _ _ | imp _ _ | iff _ _ | xor _ _ => isTrue trivial
  | not _ => isFalse id
  | and es => inferInstanceAs (Decidable (es.length ≠ 1 ∧ ∀ e ∈ es, e.isAnd = false))
  | or es => inferInstanceAs (Decidable (es.length ≠ 1 ∧ ∀ e ∈ es, e.isOr = false))

instance (e : Expr) : Decidable e.IsNormal := inferInstanceAs (Decidable (∀ f ∈ e.parts, f.Tidy))

variable {e a b : Expr} {es : List Expr}

private theorem forall_partsAll {P : Expr → Prop} : (∀ f ∈ partsAll es, P f) ↔ ∀ e ∈ es, ∀ f ∈ e.parts, P f := by
  rw [partsAll_eq_flatMap, List.forall_mem_flatMap]

private theorem IsNormal.tidy (h : e.IsNormal) : e.Tidy :=
  h e (mem_parts_self e)

private theorem isNormal_lit (name : String) (negated : Bool) : (lit name negated).IsNormal :=
  fun f hf => by
    rw [List.mem_singleton.1 hf]
    trivial

private theorem isNormal_and_iff :
    (and es).IsNormal ↔ (es.length ≠ 1 ∧ ∀ e ∈ es, e.isAnd = false) ∧ ∀ e ∈ es, e.IsNormal := by
  rw [IsNormal, parts, List.forall_mem_cons, forall_partsAll]
  exact Iff.rfl

private theorem isNormal_or_iff :
    (or es).IsNormal ↔ (es.length ≠ 1 ∧ ∀ e ∈ es, e.isOr = false) ∧ ∀ e ∈ es, e.IsNormal := by
  rw [IsNormal, parts, List.forall_mem_cons, forall_partsAll]
  exact Iff.rfl

private theorem isNormal_imp_iff : (imp a b).IsNormal ↔ a.IsNormal ∧ b.IsNormal := by
  rw [IsNormal, parts, List.forall_mem_cons, List.forall_mem_append]
  exact and_iff_right trivial

private theorem isNormal_iff_iff : (iff a b).IsNormal ↔ a.IsNormal ∧ b.IsNormal := by
  rw [IsNormal, parts, List.forall_mem_cons, List.forall_mem_append]
  exact and_iff_right trivial

private theorem isNormal_xor_iff : (xor a b).IsNormal ↔ a.IsNormal ∧ b.IsNormal := by
  rw [IsNormal, parts, List.forall_mem_cons, List.forall_mem_append]
  exact and_iff_right trivial

/-! ### Merged conjunctions and disjunctions -/

private theorem conjuncts_of_isAnd (h : e.isAnd = false) : e.conjuncts = [e] := by
  cases e with
  | and es => cases h
  | _ => rfl

private theorem disjuncts_of_isOr (h : e.isOr = false) : e.disjuncts = [e] := by
  cases e with
  | or es => cases h
  | _ => rfl

/-- The terms of a normal conjunction are normal, and none is a conjunction. -/
private theorem IsNormal.conjuncts (h : e.IsNormal) : ∀ f ∈ e.conjuncts, f.isAnd = false ∧ f.IsNormal := by
  cases e with
  | and es =>
    obtain ⟨⟨-, hkind⟩, hes⟩ := isNormal_and_iff.1 h
    exact fun f hf => ⟨hkind f hf, hes f hf⟩
  | _ =>
    intro f hf
    rw [List.mem_singleton.1 hf]
    exact ⟨rfl, h⟩

private theorem IsNormal.disjuncts (h : e.IsNormal) : ∀ f ∈ e.disjuncts, f.isOr = false ∧ f.IsNormal := by
  cases e with
  | or es =>
    obtain ⟨⟨-, hkind⟩, hes⟩ := isNormal_or_iff.1 h
    exact fun f hf => ⟨hkind f hf, hes f hf⟩
  | _ =>
    intro f hf
    rw [List.mem_singleton.1 hf]
    exact ⟨rfl, h⟩

private theorem isNormal_conj (h : ∀ e ∈ es, e.IsNormal) : (conj es).IsNormal := by
  have hterms : ∀ f ∈ es.flatMap conjuncts, f.isAnd = false ∧ f.IsNormal :=
    List.forall_mem_flatMap.2 fun e he => (h e he).conjuncts
  unfold conj
  split
  · rename_i e he
    rw [he, List.forall_mem_singleton] at hterms
    exact hterms.2
  · rename_i hne
    refine isNormal_and_iff.2 ⟨⟨fun hlen => ?_, fun f hf => (hterms f hf).1⟩, fun f hf => (hterms f hf).2⟩
    obtain ⟨e, he⟩ := List.length_eq_one_iff.1 hlen
    exact hne e he

private theorem isNormal_disj (h : ∀ e ∈ es, e.IsNormal) : (disj es).IsNormal := by
  have hterms : ∀ f ∈ es.flatMap disjuncts, f.isOr = false ∧ f.IsNormal :=
    List.forall_mem_flatMap.2 fun e he => (h e he).disjuncts
  unfold disj
  split
  · rename_i e he
    rw [he, List.forall_mem_singleton] at hterms
    exact hterms.2
  · rename_i hne
    refine isNormal_or_iff.2 ⟨⟨fun hlen => ?_, fun f hf => (hterms f hf).1⟩, fun f hf => (hterms f hf).2⟩
    obtain ⟨e, he⟩ := List.length_eq_one_iff.1 hlen
    exact hne e he

private theorem flatMap_singletons {f : Expr → List Expr} (h : ∀ e ∈ es, f e = [e]) : es.flatMap f = es := by
  rw [List.flatMap_congr h, List.flatMap_singleton']

/-- Where there is nothing to merge, a conjunction stays as it is. -/
private theorem conj_of_tidy (h : (and es).Tidy) : conj es = and es := by
  obtain ⟨hlen, hkind⟩ := h
  unfold conj
  rw [flatMap_singletons fun e he => conjuncts_of_isAnd (hkind e he)]
  split
  · exact absurd rfl hlen
  · rfl

private theorem disj_of_tidy (h : (or es).Tidy) : disj es = or es := by
  obtain ⟨hlen, hkind⟩ := h
  unfold disj
  rw [flatMap_singletons fun e he => disjuncts_of_isOr (hkind e he)]
  split
  · exact absurd rfl hlen
  · rfl

/-! ### Normal forms -/

mutual

private theorem isNormal_normalizeTo (p : Bool) (e : Expr) : (normalizeTo p e).IsNormal := by
  cases e with
  | lit name negated => exact isNormal_lit _ _
  | not e => exact isNormal_normalizeTo (!p) e
  | and es =>
    cases p with
    | true => exact isNormal_conj (isNormal_normalizeAll true es)
    | false => exact isNormal_disj (isNormal_normalizeAll false es)
  | or es =>
    cases p with
    | true => exact isNormal_disj (isNormal_normalizeAll true es)
    | false => exact isNormal_conj (isNormal_normalizeAll false es)
  | imp a b =>
    have ha := isNormal_normalizeTo true a
    cases p with
    | true => exact isNormal_imp_iff.2 ⟨ha, isNormal_normalizeTo true b⟩
    | false =>
      have hb := isNormal_normalizeTo false b
      exact isNormal_conj (List.forall_mem_cons.2 ⟨ha, List.forall_mem_singleton.2 hb⟩)
  | iff a b | xor a b =>
    have ha := isNormal_normalizeTo true a
    have hb := isNormal_normalizeTo true b
    -- negated, one is the other
    cases p <;> first | exact isNormal_iff_iff.2 ⟨ha, hb⟩ | exact isNormal_xor_iff.2 ⟨ha, hb⟩

private theorem isNormal_normalizeAll (p : Bool) (es : List Expr) : ∀ e ∈ normalizeAll p es, e.IsNormal := by
  cases es with
  | nil => exact fun e he => absurd he List.not_mem_nil
  | cons e es => exact List.forall_mem_cons.2 ⟨isNormal_normalizeTo p e, isNormal_normalizeAll p es⟩

end

private theorem isNormal_normalize (e : Expr) : e.normalize.IsNormal :=
  isNormal_normalizeTo true e

mutual

/-- An expression that has the shape of a normal form is its own. -/
private theorem IsNormal.normalize_eq (e : Expr) (h : e.IsNormal) : e.normalize = e := by
  cases e with
  | lit name negated =>
    cases negated <;> rfl
  | not e => exact h.tidy.elim
  | and es =>
    have hes := IsNormal.normalizeAll_eq es (isNormal_and_iff.1 h).2
    show conj (normalizeAll true es) = and es
    rw [hes, conj_of_tidy h.tidy]
  | or es =>
    have hes := IsNormal.normalizeAll_eq es (isNormal_or_iff.1 h).2
    show disj (normalizeAll true es) = or es
    rw [hes, disj_of_tidy h.tidy]
  | imp a b =>
    obtain ⟨ha, hb⟩ := isNormal_imp_iff.1 h
    exact congrArg₂ imp (IsNormal.normalize_eq a ha) (IsNormal.normalize_eq b hb)
  | iff a b =>
    obtain ⟨ha, hb⟩ := isNormal_iff_iff.1 h
    exact congrArg₂ iff (IsNormal.normalize_eq a ha) (IsNormal.normalize_eq b hb)
  | xor a b =>
    obtain ⟨ha, hb⟩ := isNormal_xor_iff.1 h
    exact congrArg₂ xor (IsNormal.normalize_eq a ha) (IsNormal.normalize_eq b hb)

private theorem IsNormal.normalizeAll_eq (es : List Expr) (h : ∀ e ∈ es, e.IsNormal) : normalizeAll true es = es := by
  cases es with
  | nil => rfl
  | cons e es =>
    obtain ⟨he, hes⟩ := List.forall_mem_cons.1 h
    exact congrArg₂ List.cons (IsNormal.normalize_eq e he) (IsNormal.normalizeAll_eq es hes)

end

/-- The expressions of this shape are those that normalizing does not change. -/
private theorem normalize_eq_self_iff (e : Expr) : e.normalize = e ↔ e.IsNormal :=
  ⟨fun h => h ▸ isNormal_normalize e, IsNormal.normalize_eq e⟩

/-- A normal form has the shape of one, and so normalizing it again changes nothing. -/
theorem normalize_normalize (e : Expr) :
    e.normalize.IsNormal ∧ e.normalize.normalize = e.normalize ∧ (e.normalize = e ↔ e.IsNormal) :=
  ⟨isNormal_normalize e, (normalize_eq_self_iff e.normalize).2 (isNormal_normalize e), normalize_eq_self_iff e⟩

/-- A conjunction may stand below an implication in a conjunction. -/
example : (and [lit "a" false, imp (and [lit "b" false, lit "c" true]) (and [])]).IsNormal := by decide

/-! ### Conjuncts -/

variable {I : Type} [Index I]

/-- A normal form that is no conjunction is its own only conjunct. -/
private theorem runOn_encode_of_isAnd (h : e.IsNormal) (hkind : e.isAnd = false) :
    (e.encode (I := I)).runOn = e.encodeConjunct.runOn := by
  rw [encode, h.normalize_eq, conjuncts_of_isAnd hkind, Encoder.runOn_each_singleton]

/-- The conjuncts of the normal form may be encoded like any expression: normalizing them again changes nothing. -/
theorem runOn_encode (e : Expr) :
    (e.encode (I := I)).runOn = (Encoder.each e.normalize.conjuncts encode).runOn :=
  Encoder.runOn_each_congr fun f hf => by
    obtain ⟨hkind, hf⟩ := (isNormal_normalize e).conjuncts f hf
    exact (runOn_encode_of_isAnd hf hkind).symm

end Clausify.Expr
