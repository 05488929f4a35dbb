import Clausify.Proofs.Definitions

/-!
# Rewriting to normal form

The normal form is what rewriting leads to: a negation crosses the connective below it and the result, which may well
be larger, is rewritten in turn; any other connective is put together from its rewritten parts.  `Expr.Rewrites` says
that this comes to an end, with which result.  It always does, and the result is the normal form (`rewrites_iff`).
The induction is on the expression and treats it together with its negation, since rewriting a negated expression
leads back to negations of its parts.
-/

namespace Clausify.Expr

/-! ### Rules -/

/-- The negation of an expression, moved across its connective. -/
def cross : Expr → Expr
  | lit name negated => lit name !negated
  | not e => e
  | and es => or (es.map not)
  | or es => and (es.map not)
  | imp a b => and [a, not b]
  | iff a b => xor a b
  | xor a b => iff a b

/-- Rewriting an expression ends with a result. -/
inductive Rewrites : Expr → Expr → Prop where
  | lit (name : String) (negated : Bool) : Rewrites (lit name negated) (lit name negated)
  | not {e r : Expr} : Rewrites e.cross r → Rewrites (not e) r
  | and {es rs : List Expr} : List.Forall₂ Rewrites es rs → Rewrites (and es) (conj rs)
  | or {es rs : List Expr} : List.Forall₂ Rewrites es rs → Rewrites (or es) (disj rs)
  | imp {a b r r' : Expr} : Rewrites a r → Rewrites b r' → Rewrites (imp a b) (imp r r')
  | iff {a b r r' : Expr} : Rewrites a r → Rewrites b r' → Rewrites (iff a b) (iff r r')
  | xor {a b r r' : Expr} : Rewrites a r → Rewrites b r' → Rewrites (xor a b) (xor r r')

variable {e a b r : Expr} {es : List Expr}

private theorem rewrites_lit_iff {name : String} {negated : Bool} :
    Rewrites (lit name negated) r ↔ r = lit name negated := by
  constructor
  · intro h
    cases h
    rfl
  · rintro rfl
    exact .lit name negated

private theorem rewrites_not_iff : Rewrites (not e) r ↔ Rewrites e.cross r := by
  constructor
  · intro h
    cases h
    assumption
  · exact .not

private theorem rewrites_and_iff : Rewrites (and es) r ↔ ∃ rs, List.Forall₂ Rewrites es rs ∧ r = conj rs := by
  constructor
  · intro h
    cases h
    exact ⟨_, ‹_›, rfl⟩
  · rintro ⟨rs, h, rfl⟩
    exact .and h

private theorem rewrites_or_iff : Rewrites (or es) r ↔ ∃ rs, List.Forall₂ Rewrites es rs ∧ r = disj rs := by
  constructor
  · intro h
    cases h
    exact ⟨_, ‹_›, rfl⟩
  · rintro ⟨rs, h, rfl⟩
    exact .or h

private theorem rewrites_imp_iff : Rewrites (imp a b) r ↔ ∃ s, Rewrites a s ∧ ∃ t, Rewrites b t ∧ r = imp s t := by
  constructor
  · intro h
    cases h
    exact ⟨_, ‹_›, _, ‹_›, rfl⟩
  · rintro ⟨s, hs, t, ht, rfl⟩
    exact .imp hs ht

private theorem rewrites_iff_iff : Rewrites (iff a b) r ↔ ∃ s, Rewrites a s ∧ ∃ t, Rewrites b t ∧ r = iff s t := by
  constructor
  · intro h
    cases h
    exact ⟨_, ‹_›, _, ‹_›, rfl⟩
  · rintro ⟨s, hs, t, ht, rfl⟩
    exact .iff hs ht

private theorem rewrites_xor_iff : Rewrites (xor a b) r ↔ ∃ s, Rewrites a s ∧ ∃ t, Rewrites b t ∧ r = xor s t := by
  constructor
  · intro h
    cases h
    exact ⟨_, ‹_›, _, ‹_›, rfl⟩
  · rintro ⟨s, hs, t, ht, rfl⟩
    exact .xor hs ht

private theorem rewritesAll_cons_iff {rs : List Expr} : List.Forall₂ Rewrites (e :: es) rs ↔
    ∃ s, Rewrites e s ∧ ∃ ss, List.Forall₂ Rewrites es ss ∧ rs = s :: ss := by
  rw [List.forall₂_cons_left_iff]
  simp only [exists_and_left]

/-! ### Results -/

mutual

/-- Rewriting an expression, or its negation, ends with its normal form and nothing else. -/
theorem rewrites_iff (e r : Expr) :
    (Rewrites e r ↔ r = normalizeTo true e) ∧ (Rewrites (not e) r ↔ r = normalizeTo false e) := by
  cases e with
  | lit name negated =>
    rw [rewrites_not_iff, cross, rewrites_lit_iff, rewrites_lit_iff, normalizeTo, normalizeTo]
    cases negated <;> exact ⟨Iff.rfl, Iff.rfl⟩
  | not e =>
    obtain ⟨hpos, hneg⟩ := rewrites_iff e r
    rw [rewrites_not_iff (e := not e), cross]
    exact ⟨hneg, hpos⟩
  | and es | or es =>
    have hes := rewritesAll_iff es
    rw [rewrites_not_iff, cross, rewrites_and_iff, rewrites_or_iff]
    constructor
    · simp only [(hes _).1, exists_eq_left]
      rfl
    · simp only [(hes _).2, exists_eq_left]
      rfl
  | imp a b =>
    have ha := rewrites_iff a
    have hb := rewrites_iff b
    rw [rewrites_not_iff, cross, rewrites_imp_iff, rewrites_and_iff]
    constructor
    · simp only [(ha _).1, (hb _).1, exists_eq_left]
      rfl
    · -- the negation of an implication is a conjunction of two terms
      simp only [rewritesAll_cons_iff, List.forall₂_nil_left_iff, (ha _).1, (hb _).2, exists_eq_left]
      rfl
  | iff a b | xor a b =>
    -- negated, one is the other
    have ha := rewrites_iff a
    have hb := rewrites_iff b
    rw [rewrites_not_iff, cross, rewrites_iff_iff, rewrites_xor_iff]
    simp only [(ha _).1, (hb _).1, exists_eq_left]
    exact ⟨Iff.rfl, Iff.rfl⟩

private theorem rewritesAll_iff (es rs : List Expr) :
    (List.Forall₂ Rewrites es rs ↔ rs = normalizeAll true es) ∧
      (List.Forall₂ Rewrites (es.map not) rs ↔ rs = normalizeAll false es) := by
  cases es with
  | nil => exact ⟨List.forall₂_nil_left_iff, List.forall₂_nil_left_iff⟩
  | cons e es =>
    have he := rewrites_iff e
    have hes := rewritesAll_iff es
    rw [List.map_cons, rewritesAll_cons_iff, rewritesAll_cons_iff]
    simp only [(he _).1, (he _).2, (hes _).1, (hes _).2, exists_eq_left]
    exact ⟨Iff.rfl, Iff.rfl⟩

end

/-! ### Names in scope -/

/-- Rewriting an expression ends, with its normal form only, which has the same values and the same names.  So the
expression is encoded wherever its own names are in scope. -/
theorem normalize_rewrites (e : Expr) :
    (∀ r, Rewrites e r ↔ r = e.normalize) ∧ (∀ value, e.normalize.eval value = e.eval value) ∧
      e.normalize.names = e.names ∧
      ∀ (s : State Int) (guards : List Literal), s.Ready guards (fun v => ∃ name ∈ e.names, v = .str name) →
        ∃ t, e.encode.runOn s = .ok () t :=
  ⟨fun r => (rewrites_iff e r).1, fun _ => eval_normalize e, names_normalize e, fun _ _ hs => exists_runOn_encode hs⟩

/-- The negation of a conjunction with a negated implication, over its three names. -/
theorem normalize_rewrites_of_negated_conjunction :
    let e : Expr := not (and [lit "a" false, not (imp (lit "b" false) (lit "c" true))])
    let s : State Int :=
      { nextVar := 4, clauses := [], varMap := .ofTable ⟨[(.str "a", 1), (.str "b", 2), (.str "c", 3)], by decide⟩
        assumptions := [], contexts := [], checkInvariants := true, traceContexts := true, journal := .empty }
    Rewrites e (or [lit "a" true, imp (lit "b" false) (lit "c" true)]) ∧ e.normalize.names = ["a", "b", "c"] ∧
      ∃ t, e.encode.runOn s = .ok () t := by
  intro e s
  have hindexed : ∀ name ∈ e.names, ∃ i, s.varMap.index (.str name) = .ok i := by
    show ∀ name ∈ ["a", "b", "c"], _
    rw [List.forall_mem_cons, List.forall_mem_cons, List.forall_mem_singleton]
    exact ⟨⟨1, rfl⟩, ⟨2, rfl⟩, ⟨3, rfl⟩⟩
  have hready := ready_of_names ((State.check_eq_ok_iff (by decide)).1 rfl) rfl hindexed
  obtain ⟨hrewrites, -, hnames, hencode⟩ := normalize_rewrites e
  exact ⟨(hrewrites _).2 rfl, hnames, hencode s [] hready⟩

end Clausify.Expr
