import Clausify.Literal

/-!
# Literals moved to other variables

A literal that is moved to another variable, or lowered out of a temporary scope, may come as an integer, whose sign
is then its polarity.  So it is the literal that is meant if its variable is no integer or a positive one
(`Value.denotes_signed_iff`).  A negative integer turns the polarity around, and zero is no literal at all.

Only a numbered literal is moved to an integer in this way.  Where a literal takes the variables (`Literal.Takes`),
moving it keeps the structure of literals (`Literal.mapVar_laws`).  Lowering makes an integer of any literal, so it
undoes lifting exactly for the variables that are no integers or positive ones (`Literal.lower_lift`).
-/

namespace Clausify

/-! ### Signs -/

namespace Value

/-- The value is a literal of this variable and this polarity. -/
def Denotes (v var : Value) (positive : Bool) : Prop :=
  ∃ l, Literal.ofValue v = .ok l ∧ l.var = var ∧ l.positive = positive

/-- An integer with the polarity as its sign, or else a named literal. -/
def signed (positive : Bool) : Value → Value
  | int n => int (if positive then n else -n)
  | v => lit v positive

/-- The value is no integer, or a positive one. -/
def Signable : Value → Prop
  | int n => 0 < n
  | _ => True

variable {v w var : Value} {p q : Bool} {n : Int}

/-- A value is one literal at most. -/
private theorem Denotes.unique (h : v.Denotes var p) (h' : v.Denotes w q) : var = w ∧ p = q := by
  obtain ⟨l, hl, rfl, rfl⟩ := h
  obtain ⟨k, hk, rfl, rfl⟩ := h'
  rw [hl] at hk
  cases hk
  exact ⟨rfl, rfl⟩

private theorem denotes_lit (v : Value) (p : Bool) : (lit v p).Denotes v p := ⟨.named v p, rfl, rfl, rfl⟩

private theorem denotes_signed_of_pos (hn : 0 < n) (p : Bool) : ((int n).signed p).Denotes (int n) p := by
  have hne : (if p then n else -n) ≠ 0 := by split <;> omega
  refine ⟨.numbered _ hne, dif_neg hne, ?_, ?_⟩
  · show int _ = int n
    congr 1
    split <;> omega
  · cases p with
    | true => exact decide_eq_true hn
    | false => exact decide_eq_false (show ¬0 < -n by omega)

private theorem signed_neg (n : Int) (p : Bool) : (int (-n)).signed p = (int n).signed !p := by
  unfold signed
  cases p with
  | true => rfl
  | false => exact congrArg int (Int.neg_neg n)

/-- The sign of a negative integer stands for the other polarity, of another variable. -/
private theorem denotes_signed_of_neg (hn : n < 0) (p : Bool) : ((int n).signed p).Denotes (int (-n)) !p := by
  have h := denotes_signed_of_pos (show 0 < -n by omega) !p
  rw [signed_neg, Bool.not_not] at h
  exact h

private theorem not_denotes_signed_zero (q : Bool) : ¬((int 0).signed q).Denotes var p := by
  rintro ⟨l, h, -⟩
  cases q <;> cases h

theorem denotes_signed_iff (v : Value) (p : Bool) : (v.signed p).Denotes v p ↔ v.Signable := by
  cases v with
  | int n =>
    refine ⟨fun h => ?_, fun hn => denotes_signed_of_pos hn p⟩
    rcases Int.lt_trichotomy n 0 with hn | rfl | hn
    · have := (h.unique (denotes_signed_of_neg hn p)).2
      cases p <;> cases this
    · exact absurd h (not_denotes_signed_zero p)
    · exact hn
  | _ => exact ⟨fun _ => trivial, fun _ => denotes_lit _ p⟩

private theorem ofValue_signed_not (v : Value) (p : Bool) :
    Literal.ofValue (v.signed !p) = (Literal.ofValue (v.signed p)).map Literal.negate := by
  cases v with
  | int n =>
    have hneg (n : Int) : Literal.ofValue (int (-n)) = (Literal.ofValue (int n)).map Literal.negate := by
      unfold Literal.ofValue
      dsimp only
      by_cases hn : n = 0
      · rw [dif_pos hn, dif_pos (by omega)]
        rfl
      · rw [dif_neg hn, dif_neg (by omega)]
        rfl
    cases p with
    | true => exact hneg n
    | false =>
      have h := hneg (-n)
      rw [Int.neg_neg] at h
      exact h
  | _ => rfl

end Value

namespace Literal

/-! ### Moving -/

/-- The literal can be moved to the variable: a numbered literal cannot to zero or to a negative integer. -/
def Takes : Literal → Value → Prop
  | numbered _ _, v => v.Signable
  | _, _ => True

private theorem takes_of_signable (l : Literal) {v : Value} (h : v.Signable) : l.Takes v := by
  cases l with
  | numbered n hn => exact h
  | named w p | foreign w p => trivial

private theorem withVar_numbered {n : Int} (hn : n ≠ 0) (v : Value) :
    (numbered n hn).withVar v = v.signed (numbered n hn).positive := by
  unfold withVar Value.signed positive
  cases v with
  | int m => simp only [decide_eq_true_eq]
  | _ => rfl

private theorem denotes_withVar_iff (l : Literal) (v : Value) : (l.withVar v).Denotes v l.positive ↔ l.Takes v := by
  cases l with
  | numbered n hn =>
    rw [withVar_numbered]
    exact Value.denotes_signed_iff v _
  | named w p => exact ⟨fun _ => trivial, fun _ => Value.denotes_lit v p⟩
  | foreign w p => exact ⟨fun _ => trivial, fun _ => ⟨.foreign v p, rfl, rfl, rfl⟩⟩

private theorem ofValue_withVar_negate (l : Literal) (v : Value) :
    ofValue (l.negate.withVar v) = (ofValue (l.withVar v)).map negate := by
  cases l with
  | numbered n hn =>
    have hnegate : (numbered n hn).negate.withVar v = v.signed (numbered n hn).negate.positive := withVar_numbered _ v
    rw [hnegate, positive_negate, withVar_numbered]
    exact Value.ofValue_signed_not v _
  | named w p | foreign w p => rfl

/-- A literal that was moved can be moved to whatever it could be moved to before. -/
private theorem Takes.withVar {l k : Literal} {v w : Value} (h : l.Takes w) (hk : ofValue (l.withVar v) = .ok k) :
    k.Takes w := by
  cases l with
  | numbered n hn => exact takes_of_signable k h
  | named u p | foreign u p =>
    cases hk
    trivial

/-- Moving a literal by `f` gives the literal of the new variable and the old polarity exactly if it takes that
variable.  A negated literal is moved to the negation, in all cases.  Moving on by `g` is moving by the composition,
if the literal takes the variables that it is moved to. -/
theorem mapVar_laws (l : Literal) (f g : Value → Value) :
    ((l.mapVar f).Denotes (f l.var) l.positive ↔ l.Takes (f l.var)) ∧
      ofValue (l.negate.mapVar f) = (ofValue (l.mapVar f)).map negate ∧
      (l.Takes (f l.var) → l.Takes (g (f l.var)) → ∃ k, ofValue (l.mapVar f) = .ok k ∧
        (k.mapVar g).Denotes (g (f l.var)) l.positive ∧ (l.mapVar (g ∘ f)).Denotes (g (f l.var)) l.positive) := by
  refine ⟨denotes_withVar_iff l _, ?_, fun hf hg => ?_⟩
  · unfold mapVar
    rw [var_negate]
    exact ofValue_withVar_negate l _
  · obtain ⟨k, hk, hvar, hpositive⟩ := (denotes_withVar_iff l _).2 hf
    have hmoved := (denotes_withVar_iff k _).2 (hg.withVar hk)
    rw [hpositive] at hmoved
    refine ⟨k, hk, ?_, (denotes_withVar_iff l _).2 hg⟩
    unfold mapVar
    rw [hvar]
    exact hmoved

/-- A numbered literal becomes a named one on the way. -/
theorem mapVar_laws_of_change_of_form :
    let l := numbered (-2) (by decide)
    let f : Value → Value := fun _ => .str "a"
    let g : Value → Value := fun _ => .int 7
    l.Takes (f l.var) ∧ l.Takes (g (f l.var)) ∧ ofValue (l.mapVar f) = .ok (named (.str "a") false) ∧
      (l.mapVar (g ∘ f)).Denotes (.int 7) false := by
  intro l f g
  have hf : l.Takes (f l.var) := trivial
  have hg : l.Takes (g (f l.var)) := show (0 : Int) < 7 by decide
  obtain ⟨k, hk, -, h⟩ := (mapVar_laws l f g).2.2 hf hg
  exact ⟨hf, hg, rfl, h⟩

/-- Moved to a negative integer, a numbered literal changes its polarity; moved to zero, it is no literal.  A named
literal in its place is moved as it should be. -/
theorem mapVar_changes_polarity :
    let l := numbered 2 (by decide)
    ¬(l.mapVar fun _ => .int (-5)).Denotes (.int (-5)) true ∧ (l.mapVar fun _ => .int (-5)).Denotes (.int 5) false ∧
      (∀ var p, ¬(l.mapVar fun _ => .int 0).Denotes var p) ∧
      ((named l.var l.positive).mapVar fun _ => .int (-5)).Denotes (.int (-5)) true := by
  intro l
  have hneg : (l.mapVar fun _ => .int (-5)).Denotes (.int 5) false := ⟨numbered (-5) (by decide), rfl, rfl, rfl⟩
  refine ⟨fun h => ?_, hneg, fun var p => Value.not_denotes_signed_zero true, Value.denotes_lit _ _⟩
  cases (h.unique hneg).2

/-! ### Lowering -/

/-- Lowering a lifted literal succeeds, and gives the literal exactly if its variable is no integer or a positive one.
Otherwise it gives the opposite literal of the magnitude, and for zero no literal at all. -/
theorem lower_lift (l : Literal) :
    ∃ v, l.lift.lower = .ok v ∧ (v.Denotes l.var l.positive ↔ l.var.Signable) ∧
      ∀ n, l.var = .int n → (n < 0 → v.Denotes (.int (-n)) !l.positive) ∧ (n = 0 → ∀ var p, ¬v.Denotes var p) := by
  have hlower : l.lift.lower = .ok (l.var.signed l.positive) := by
    unfold lower
    rw [var_lift, positive_lift]
    cases l.var <;> rfl
  refine ⟨_, hlower, Value.denotes_signed_iff _ _, fun n hn => ?_⟩
  rw [hn]
  refine ⟨fun hneg => Value.denotes_signed_of_neg hneg _, ?_⟩
  rintro rfl var p
  exact Value.not_denotes_signed_zero _

theorem lower_lift_changes_literal :
    let l := named (.int (-3)) true
    l.lift.lower = .ok (.int (-3)) ∧ ¬(Value.int (-3)).Denotes l.var l.positive ∧
      (named (.int 0) true).lift.lower = .ok (.int 0) ∧ ofValue (.int 0) = .error .zeroLiteral := by
  intro l
  refine ⟨rfl, fun h => ?_, rfl, rfl⟩
  cases (h.unique (Value.denotes_signed_of_neg (n := -3) (by decide) true)).2

end Literal

end Clausify
