import Clausify.Expr.Basic

/-!
# The normal form of an expression

An expression and its normal form have the same values (`Expr.eval_normalize`) and the same names in the same order
(`Expr.names_normalize`).  Both are proved for the normal forms of an expression and of its negation at once, by
induction on the expression.
-/

namespace Clausify.Expr

variable {value : String → Bool}

/-! ### Values and names -/

mutual

/-- The value of an expression depends on its names only. -/
theorem eval_congr {value' : String → Bool} (e : Expr) (h : ∀ name ∈ e.names, value name = value' name) :
    e.eval value = e.eval value' := by
  cases e with
  | lit name negated => rw [eval, eval, h name (List.mem_singleton_self name)]
  | not e => rw [eval, eval, eval_congr e h]
  | and es => exact (evalAll_congr es h).1
  | or es => exact (evalAll_congr es h).2
  | imp a b | iff a b | xor a b =>
    have ha := eval_congr a fun name hm => h name (List.mem_append_left _ hm)
    have hb := eval_congr b fun name hm => h name (List.mem_append_right _ hm)
    rw [eval, eval, ha, hb]

private theorem evalAll_congr {value' : String → Bool} (es : List Expr)
    (h : ∀ name ∈ namesAll es, value name = value' name) :
    evalAll value es = evalAll value' es ∧ evalAny value es = evalAny value' es := by
  cases es with
  | nil => exact ⟨rfl, rfl⟩
  | cons e es =>
    have he := eval_congr e fun name hm => h name (List.mem_append_left _ hm)
    obtain ⟨hall, hany⟩ := evalAll_congr es fun name hm => h name (List.mem_append_right _ hm)
    rw [evalAll, evalAll, evalAny, evalAny, he, hall, hany]
    exact ⟨rfl, rfl⟩

end

/-! ### Lists of expressions -/

private theorem evalAll_eq_all (es : List Expr) : evalAll value es = es.all (eval value) := by
  induction es with
  | nil => rfl
  | cons e es ih => rw [evalAll, ih, List.all_cons]

private theorem evalAny_eq_any (es : List Expr) : evalAny value es = es.any (eval value) := by
  induction es with
  | nil => rfl
  | cons e es ih => rw [evalAny, ih, List.any_cons]

private theorem namesAll_eq_flatMap (es : List Expr) : namesAll es = es.flatMap names := by
  induction es with
  | nil => rfl
  | cons e es ih => rw [namesAll, ih, List.flatMap_cons]

theorem all_conjuncts (e : Expr) : e.conjuncts.all (eval value) = e.eval value := by
  cases e with
  | and es => exact (evalAll_eq_all es).symm
  | _ => exact Bool.and_true _

private theorem any_disjuncts (e : Expr) : e.disjuncts.any (eval value) = e.eval value := by
  cases e with
  | or es => exact (evalAny_eq_any es).symm
  | _ => exact Bool.or_false _

theorem flatMap_names_conjuncts (e : Expr) : e.conjuncts.flatMap names = e.names := by
  cases e with
  | and es => exact (namesAll_eq_flatMap es).symm
  | _ => exact List.append_nil _

private theorem flatMap_names_disjuncts (e : Expr) : e.disjuncts.flatMap names = e.names := by
  cases e with
  | or es => exact (namesAll_eq_flatMap es).symm
  | _ => exact List.append_nil _

/-! ### Merged conjunctions and disjunctions -/

/-- What is the same for a conjunction and its terms is the same for a merged conjunction and its conjuncts. -/
private theorem conj_eq {β : Type} {f : Expr → β} {g : List Expr → β} (hone : ∀ e, g [e] = f e)
    (hand : ∀ es, g es = f (and es)) (es : List Expr) : f (conj es) = g (es.flatMap conjuncts) := by
  unfold conj
  split
  · rename_i e he
    rw [he, hone]
  · exact (hand _).symm

private theorem disj_eq {β : Type} {f : Expr → β} {g : List Expr → β} (hone : ∀ e, g [e] = f e)
    (hor : ∀ es, g es = f (or es)) (es : List Expr) : f (disj es) = g (es.flatMap disjuncts) := by
  unfold disj
  split
  · rename_i e he
    rw [he, hone]
  · exact (hor _).symm

private theorem eval_conj (es : List Expr) : (conj es).eval value = evalAll value es := by
  have h := conj_eq (f := eval value) (fun e => Bool.and_true (e.eval value)) (fun es => (evalAll_eq_all es).symm) es
  rw [h, List.all_flatMap, evalAll_eq_all]
  simp only [all_conjuncts]

private theorem eval_disj (es : List Expr) : (disj es).eval value = evalAny value es := by
  have h := disj_eq (f := eval value) (fun e => Bool.or_false (e.eval value)) (fun es => (evalAny_eq_any es).symm) es
  rw [h, List.any_flatMap, evalAny_eq_any]
  simp only [any_disjuncts]

private theorem names_conj (es : List Expr) : (conj es).names = namesAll es := by
  have h := conj_eq (f := names) (fun e => List.append_nil e.names) (fun es => (namesAll_eq_flatMap es).symm) es
  rw [h, List.flatMap_assoc, namesAll_eq_flatMap]
  simp only [flatMap_names_conjuncts]

private theorem names_disj (es : List Expr) : (disj es).names = namesAll es := by
  have h := disj_eq (f := names) (fun e => List.append_nil e.names) (fun es => (namesAll_eq_flatMap es).symm) es
  rw [h, List.flatMap_assoc, namesAll_eq_flatMap]
  simp only [flatMap_names_disjuncts]

/-! ### Normal forms -/

mutual

/-- The normal form of an expression is true where the expression is, and that of its negation where it is not. -/
private theorem eval_normalizeTo (p : Bool) (e : Expr) : (normalizeTo p e).eval value = (e.eval value == p) := by
  cases e with
  | lit name negated =>
    rw [normalizeTo, eval, eval]
    cases value name <;> cases negated <;> cases p <;> rfl
  | not e =>
    rw [normalizeTo, eval_normalizeTo (!p) e, eval]
    cases e.eval value <;> cases p <;> rfl
  | and es =>
    obtain ⟨hall, hany⟩ := eval_normalizeAll p es
    cases p with
    | true =>
      rw [normalizeTo, if_pos rfl, eval_conj, hall, eval]
      cases evalAll value es <;> rfl
    | false =>
      -- the negation of a conjunction is the disjunction of the negations
      rw [normalizeTo, if_neg Bool.false_ne_true, eval_disj, hany, eval]
      cases evalAll value es <;> rfl
  | or es =>
    obtain ⟨hall, hany⟩ := eval_normalizeAll p es
    cases p with
    | true =>
      rw [normalizeTo, if_pos rfl, eval_disj, hany, eval]
      cases evalAny value es <;> rfl
    | false =>
      rw [normalizeTo, if_neg Bool.false_ne_true, eval_conj, hall, eval]
      cases evalAny value es <;> rfl
  | imp a b =>
    have ha := eval_normalizeTo true a
    cases p with
    | true =>
      rw [normalizeTo, if_pos rfl, eval, ha, eval_normalizeTo true b, eval]
      cases a.eval value <;> cases b.eval value <;> rfl
    | false =>
      rw [normalizeTo, if_neg Bool.false_ne_true, eval_conj, evalAll, ha, evalAll, eval_normalizeTo false b, evalAll,
        eval]
      cases a.eval value <;> cases b.eval value <;> rfl
  | iff a b | xor a b =>
    have ha := eval_normalizeTo true a
    have hb := eval_normalizeTo true b
    cases p with
    | true =>
      simp only [normalizeTo, if_true, eval, ha, hb]
      cases a.eval value <;> cases b.eval value <;> rfl
    | false =>
      simp only [normalizeTo, Bool.false_eq_true, if_false, eval, ha, hb]
      cases a.eval value <;> cases b.eval value <;> rfl

private theorem eval_normalizeAll (p : Bool) (es : List Expr) :
    evalAll value (normalizeAll p es) = (if p then evalAll value es else !evalAny value es) ∧
      evalAny value (normalizeAll p es) = (if p then evalAny value es else !evalAll value es) := by
  cases es with
  | nil => cases p <;> exact ⟨rfl, rfl⟩
  | cons e es =>
    obtain ⟨hall, hany⟩ := eval_normalizeAll p es
    rw [normalizeAll, evalAll, evalAny, evalAll, evalAny, eval_normalizeTo p e, hall, hany]
    cases p <;> simp

end

mutual

private theorem names_normalizeTo (p : Bool) (e : Expr) : (normalizeTo p e).names = e.names := by
  cases e with
  | lit name negated => rfl
  | not e => exact names_normalizeTo (!p) e
  | and es =>
    rw [normalizeTo, names, ← namesAll_normalizeAll p es]
    cases p with
    | true => exact names_conj _
    | false => exact names_disj _
  | or es =>
    rw [normalizeTo, names, ← namesAll_normalizeAll p es]
    cases p with
    | true => exact names_disj _
    | false => exact names_conj _
  | imp a b =>
    have ha := names_normalizeTo true a
    cases p with
    | true => rw [normalizeTo, if_pos rfl, names, ha, names_normalizeTo true b, names]
    | false =>
      rw [normalizeTo, if_neg Bool.false_ne_true, names_conj, namesAll, ha, namesAll, names_normalizeTo false b,
        namesAll, List.append_nil, names]
  | iff a b | xor a b =>
    have ha := names_normalizeTo true a
    have hb := names_normalizeTo true b
    cases p with
    | true => simp only [normalizeTo, if_true, names, ha, hb]
    | false => simp only [normalizeTo, Bool.false_eq_true, if_false, names, ha, hb]

private theorem namesAll_normalizeAll (p : Bool) (es : List Expr) : namesAll (normalizeAll p es) = namesAll es := by
  cases es with
  | nil => rfl
  | cons e es => rw [normalizeAll, namesAll, names_normalizeTo p e, namesAll_normalizeAll p es, namesAll]

end

/-- A normal form has the values of its expression. -/
theorem eval_normalize (e : Expr) : e.normalize.eval value = e.eval value := by
  unfold normalize
  rw [eval_normalizeTo, beq_true]

theorem names_normalize (e : Expr) : e.normalize.names = e.names :=
  names_normalizeTo true e

end Clausify.Expr
