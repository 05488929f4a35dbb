import Clausify.Cardinality.Assembly
import Clausify.Proofs.Counting
import Clausify.Proofs.Gates
import Clausify.Proofs.Guards
import Clausify.Proofs.Representation

/-!
# Constraints assembled from checked operations

A constraint may be assembled from operations that each check the values they are handed.  The values are checked when
the constraint is built, and once more wherever they are handed on: in the rounds of a loop, which are built when they
are carried out, and in the body of a temporary scope.  There the sequential counter also asks the literals for their
unary minus and the scope for its registers.  A literal has a unary minus once it is embedded, whatever it was before
(`Counter.negates_lift`), and the registers are in the scope (`Counter.hasRow`), so each clause is built
(`Counter.build_lift`).

No later step finds anything that the first checks did not.  So what is assembled is what is encoded from the literals
at once, or the same error (`Gate.assemble_eq`, `Cardinality.assemble_eq`, `Cardinality.construct_eq`).
-/

namespace Clausify

variable {I : Type} [Index I]

/-! ### Gates -/

namespace Assembled

/-- All hypotheses imply some conclusion. -/
def allImplyAny (hyps concs : List Value) : Except Error (Encoder I Unit) := do
  let _ ← Literal.ofValues hyps
  let _ ← Literal.ofValues concs
  Checked.ifAll hyps (.encoder (← Checked.require concs))

/-- Any hypothesis implies some conclusion. -/
def anyImplyAny (hyps concs : List Value) : Except Error (Encoder I Unit) := do
  let _ ← Literal.ofValues concs
  let _ ← Literal.ofValues hyps
  return Checked.eachChosen hyps fun h => Construction.made (allImplyAny [h] concs)

/-- All hypotheses imply all conclusions. -/
def allImplyAll (hyps concs : List Value) : Except Error (Encoder I Unit) := do
  let _ ← Literal.ofValues hyps
  let _ ← Literal.ofValues concs
  return Checked.eachChosen concs fun c => Construction.made (allImplyAny hyps [c])

/-- Any hypothesis implies all conclusions. -/
def anyImplyAll (hyps concs : List Value) : Except Error (Encoder I Unit) := do
  let _ ← Literal.ofValues concs
  let _ ← Literal.ofValues hyps
  return Checked.eachChosen hyps fun h => Construction.made (allImplyAll [h] concs)

end Assembled

/-- A gate assembled from guarded clauses. -/
def Gate.assemble : Gate Value → Except Error (Encoder I Unit)
  | .allImplyAny hyps concs => Assembled.allImplyAny hyps concs
  | .allImply hyps conc => Assembled.allImplyAny hyps [conc]
  | .implyAny hyp concs => Assembled.allImplyAny [hyp] concs
  | .anyImplyAny hyps concs => Assembled.anyImplyAny hyps concs
  | .anyImply hyps conc => Assembled.anyImplyAny hyps [conc]
  | .allImplyAll hyps concs => Assembled.allImplyAll hyps concs
  | .implyAll hyp concs => Assembled.allImplyAll [hyp] concs
  | .anyImplyAll hyps concs => Assembled.anyImplyAll hyps concs
  | .imply a b => Assembled.allImplyAny [a] [b]
  | .equivalent a b => do
    Checked.seq [.encoder (← Assembled.allImplyAny [a] [b]), .encoder (← Assembled.allImplyAny [b] [a])]
  | .isAll v vs => do
    let _ ← Literal.ofValues vs
    Checked.seq [.encoder (← Assembled.allImplyAll [v] vs), .encoder (← Assembled.allImplyAny vs [v])]
  | .isAny v vs => do
    let _ ← Literal.ofValues vs
    Checked.seq [.encoder (← Assembled.allImplyAny [v] vs), .encoder (← Assembled.anyImplyAny vs [v])]
  | .isIff v a b => do
    let _ ← Literal.ofValues [v, a, b]
    Checked.seq [.encoder (← Assembled.allImplyAny [v, a] [b]), .encoder (← Assembled.allImplyAny [v, b] [a]),
      .encoder (← Assembled.allImplyAny [a, b] [v]), .encoder (← Checked.require [a, b, v])]

/-- A loop whose rounds are all built without fail. -/
private theorem Checked.eachChosen_eq_each {I α ι κ : Type} {m : ι → κ} {f : κ → Except Error (Encoder I α)}
    {g : ι → Encoder I α} (items : List ι) (h : ∀ i, f (m i) = .ok (g i)) :
    Checked.eachChosen (items.map m) (fun k => Construction.made (f k)) = .each items g := by
  unfold Checked.eachChosen Encoder.each
  rw [Encoder.eachChosen_map]
  simp only [h]
  rfl

/-- What is done with values behind a check is done with the literals that they are. -/
private theorem Literal.bind_ofValues {β : Type} {f : List Value → Except Error β} {g : List Literal → Except Error β}
    {vs : List Value} (h : ∀ ls, f (ls.map toValue) = g ls) :
    (do let _ ← ofValues vs; f vs) = (do g (← ofValues vs)) := by
  cases hv : ofValues vs with
  | error x => rfl
  | ok ls =>
    obtain rfl := ofValues_eq_ok.1 hv
    exact h ls

private theorem Literal.ofValues_cons (v : Value) (vs : List Value) :
    ofValues (v :: vs) = (do return (← ofValue v) :: (← ofValues vs)) := List.mapM_cons

private theorem Literal.ofValues_singleton (v : Value) : ofValues [v] = (do return [← ofValue v]) := by
  rw [ofValues_cons]
  cases ofValue v <;> rfl

namespace Assembled

open Literal

private theorem allImplyAny_eq (hyps concs : List Value) : (allImplyAny hyps concs : Except Error (Encoder I Unit)) =
    (do return Gate.guarded (← ofValues hyps) (← ofValues concs)) := by
  unfold allImplyAny
  apply bind_ofValues
  intro hs
  apply bind_ofValues
  intro cs
  unfold Checked.require Checked.ifAll
  rw [ofValues_toValue, ofValues_toValue]
  rfl

private theorem anyImplyAny_eq (hyps concs : List Value) :
    (anyImplyAny hyps concs : Except Error (Encoder I Unit)) = (do
    let cs ← ofValues concs
    return .each (← ofValues hyps) fun h => Gate.guarded [h] cs) := by
  unfold anyImplyAny
  apply bind_ofValues
  intro cs
  apply bind_ofValues
  intro hs
  refine congrArg Except.ok (Checked.eachChosen_eq_each hs fun h => ?_)
  rw [allImplyAny_eq, ofValues_singleton, ofValue_toValue, ofValues_toValue]
  rfl

private theorem allImplyAll_eq (hyps concs : List Value) :
    (allImplyAll hyps concs : Except Error (Encoder I Unit)) = (do
    let hs ← ofValues hyps
    return .each (← ofValues concs) fun c => Gate.guarded hs [c]) := by
  unfold allImplyAll
  apply bind_ofValues
  intro hs
  apply bind_ofValues
  intro cs
  refine congrArg Except.ok (Checked.eachChosen_eq_each cs fun c => ?_)
  rw [allImplyAny_eq, ofValues_toValue, ofValues_singleton, ofValue_toValue]
  rfl

private theorem anyImplyAll_eq (hyps concs : List Value) :
    (anyImplyAll hyps concs : Except Error (Encoder I Unit)) = (do
    let cs ← ofValues concs
    return .each (← ofValues hyps) fun h => .each cs fun c => Gate.guarded [h] [c]) := by
  unfold anyImplyAll
  apply bind_ofValues
  intro cs
  apply bind_ofValues
  intro hs
  refine congrArg Except.ok (Checked.eachChosen_eq_each hs fun h => ?_)
  rw [allImplyAll_eq, ofValues_singleton, ofValue_toValue, ofValues_toValue]
  rfl

end Assembled

open Assembled Literal in
/-- A gate is assembled from its literals, or fails at the first value that is none. -/
theorem Gate.assemble_eq (g : Gate Value) :
    (g.assemble : Except Error (Encoder I Unit)) = g.check.map composed := by
  cases g with
  | allImplyAny hyps concs | anyImplyAny hyps concs | allImplyAll hyps concs | anyImplyAll hyps concs =>
    simp only [assemble, check, allImplyAny_eq, anyImplyAny_eq, allImplyAll_eq, anyImplyAll_eq]
    cases ofValues hyps <;> cases ofValues concs <;> rfl
  | allImply vs v | implyAny v vs | anyImply vs v | implyAll v vs | isAll v vs | isAny v vs =>
    simp only [assemble, check, allImplyAny_eq, anyImplyAny_eq, allImplyAll_eq, ofValues_singleton]
    cases ofValues vs <;> cases ofValue v <;> rfl
  | imply a b | equivalent a b =>
    simp only [assemble, check, allImplyAny_eq, ofValues_singleton]
    cases ofValue a <;> cases ofValue b <;> rfl
  | isIff v a b =>
    simp only [assemble, check, allImplyAny_eq, Checked.require, ofValues_cons]
    cases ofValue v <;> cases ofValue a <;> cases ofValue b <;> rfl

/-! ### The sequential counter -/

/-- Unary minus negates a literal, unless it is of a client's own type. -/
private theorem Literal.neg_toValue (l : Literal) : l.toValue.neg = match l with
    | foreign _ _ => .error .unsuitableValue
    | l => .ok l.negate.toValue := by
  cases l <;> rfl

namespace Counter

variable {scope : Scope} {n k i : Nat} {x : Literal} {xs : List Literal}

/-- The literal has a unary minus. -/
def Negates (x : Literal) : Prop := x.toValue.neg = .ok x.negate.toValue

/-- The registers of a row are in the scope. -/
def HasRow (scope : Scope) (k i : Nat) : Prop :=
  ∀ j, 1 ≤ j → j ≤ k → fetch scope k i j = .ok (register k i j).toValue

/-- Embedding leaves a literal with a unary minus, whatever it was before. -/
theorem negates_lift (l : Literal) : Negates l.lift := Literal.neg_toValue l.lift

private theorem negates_register (k i j : Nat) : Negates (register k i j) := Literal.neg_toValue (register k i j)

theorem get_register {j : Nat} (hi : i + 1 < n) (hj : 1 ≤ j) (hjk : j ≤ k) :
    Scope.get ⟨size n k⟩ (i * k + (j - 1) : Nat) = .ok (register k i j) :=
  if_pos ⟨Int.natCast_nonneg _, Int.ofNat_lt.2 (register_lt hi hj hjk)⟩

theorem hasRow (hi : i + 1 < n) : HasRow ⟨size n k⟩ k i := by
  intro j hj hjk
  have hcast : (i * k + (j - 1) : Int) = (i * k + (j - 1) : Nat) := by
    rw [Int.natCast_add, Int.natCast_mul, Int.natCast_sub hj]
    rfl
  unfold fetch
  rw [hcast, get_register hi hj hjk]
  rfl

private theorem buildFirst_eq (hk : 1 ≤ k) (hx : Negates x) (hrow : HasRow scope k 0) :
    buildFirst scope k x.toValue = .ok ((firstRow k x).map (List.map Literal.toValue)) := by
  have hmore : (List.range' 2 (k - 1)).mapM (fun j => do return [← (← fetch scope k 0 j).neg]) =
      .ok ((List.range' 2 (k - 1)).map fun j => [(register k 0 j).negate.toValue]) := by
    refine mapM_eq_map fun j hj => ?_
    rw [List.mem_range'_1] at hj
    rw [hrow j (by omega) (by omega)]
    rfl
  unfold buildFirst
  rw [hx, hrow 1 (Nat.le_refl 1) hk, hmore]
  simp [firstRow, bind, Except.bind, pure, Except.pure]

private theorem buildNext_eq (hk : 1 ≤ k) (hx : Negates x) (hrow : HasRow scope k i)
    (hnext : HasRow scope k (i + 1)) :
    buildNext scope k i x.toValue = .ok ((nextRow k i x).map (List.map Literal.toValue)) := by
  have hmore : (List.range' 2 (k - 1)).mapM (fun j => do return [
      [← x.toValue.neg, ← (← fetch scope k i (j - 1)).neg, ← fetch scope k (i + 1) j],
      [← (← fetch scope k i j).neg, ← fetch scope k (i + 1) j]]) =
      .ok ((List.range' 2 (k - 1)).map fun j => [
        [x.negate.toValue, (register k i (j - 1)).negate.toValue, (register k (i + 1) j).toValue],
        [(register k i j).negate.toValue, (register k (i + 1) j).toValue]]) := by
    refine mapM_eq_map fun j hj => ?_
    rw [List.mem_range'_1] at hj
    rw [hx, hrow (j - 1) (by omega) (by omega), hrow j (by omega) (by omega), hnext j (by omega) (by omega)]
    rfl
  have hone : (register k i 1).toValue.neg = .ok (register k i 1).negate.toValue := negates_register k i 1
  have hlast : (register k i k).toValue.neg = .ok (register k i k).negate.toValue := negates_register k i k
  unfold buildNext
  rw [hmore, hx, hrow 1 (Nat.le_refl 1) hk, hrow k hk (Nat.le_refl k), hnext 1 (Nat.le_refl 1) hk]
  simp [nextRow, hone, hlast, List.flatMap_def, Function.comp_def, bind, Except.bind, pure, Except.pure]

private theorem buildLater_eq (hk : 1 ≤ k) (hxs : ∀ x ∈ xs, Negates x)
    (hrows : ∀ t < xs.length, HasRow scope k (i + t)) :
    buildLater scope k i (xs.map Literal.toValue) = .ok ((laterRows k i xs).map (List.map Literal.toValue)) := by
  induction xs generalizing i with
  | nil => rfl
  | cons x xs ih =>
    have hx := hxs x (List.mem_cons_self ..)
    have hrow : HasRow scope k i := hrows 0 (Nat.succ_pos _)
    cases xs with
    | nil =>
      show (do return [[← x.toValue.neg, ← (← fetch scope k i k).neg]]) = _
      rw [hx, hrow k hk (Nat.le_refl k)]
      rfl
    | cons y ys =>
      have hnext : HasRow scope k (i + 1) := hrows 1 (by simp)
      have hrest := ih (i := i + 1) (List.forall_mem_cons.1 hxs).2 fun t ht => by
        rw [Nat.add_right_comm, Nat.add_assoc]
        exact hrows (t + 1) (Nat.succ_lt_succ ht)
      show (do return (← buildNext scope k i x.toValue) ++
        (← buildLater scope k (i + 1) ((y :: ys).map Literal.toValue))) = _
      rw [buildNext_eq hk hx hrow hnext, hrest]
      exact congrArg Except.ok List.map_append.symm

/-- Of literals that are embedded, each clause of the counter is built. -/
theorem build_lift {ls : List Literal} (hk : 1 ≤ k) (hn : k < ls.length) :
    build ⟨size ls.length k⟩ k ((ls.map Literal.lift).map Literal.toValue) =
      .ok ((clauses k (ls.map Literal.lift)).map (List.map Literal.toValue)) := by
  cases ls with
  | nil => cases hn
  | cons l ls =>
    rw [List.length_cons] at hn ⊢
    have hrows (t : Nat) (ht : t < ls.length) : HasRow ⟨size (ls.length + 1) k⟩ k t := hasRow (Nat.succ_lt_succ ht)
    have hfirst := buildFirst_eq hk (negates_lift l) (hrows 0 (by omega))
    have hlater : buildLater ⟨size (ls.length + 1) k⟩ k 0 ((ls.map Literal.lift).map Literal.toValue) =
        .ok ((laterRows k 0 (ls.map Literal.lift)).map (List.map Literal.toValue)) := by
      refine buildLater_eq hk (List.forall_mem_map.2 fun l _ => negates_lift l) fun t ht => ?_
      rw [List.length_map] at ht
      rw [Nat.zero_add]
      exact hrows t ht
    show (do return (← buildFirst _ k l.lift.toValue) ++
      (← buildLater _ k 0 ((ls.map Literal.lift).map Literal.toValue))) = _
    rw [hfirst, hlater, List.map_cons, clauses, List.map_append]
    rfl

end Counter

/-! ### Cardinality constraints -/

namespace Cardinality

/-- The constraint with its bound as a value. -/
def boundValue {L : Type} : Cardinality L Int → Cardinality L Value
  | atLeastOne lits => atLeastOne lits
  | atMostOne lits => atMostOne lits
  | exactlyOne lits => exactlyOne lits
  | atMost lits k => atMost lits (.int k)
  | atLeast lits k => atLeast lits (.int k)
  | exactly lits k => exactly lits (.int k)

end Cardinality

namespace Assembled

open Literal

private theorem require_toValue (c : List Literal) :
    (Checked.require (c.map toValue) : Except Error (Encoder I Unit)) = .ok (.require c) := by
  unfold Checked.require
  rw [ofValues_toValue]
  rfl

private theorem mapM_negated (ls : List Literal) :
    (ls.map toValue).mapM negated = .ok ((ls.map negate).map toValue) := by
  unfold negated
  rw [mapM_return ofValue fun l => l.negate.toValue, List.map_map]
  exact congrArg (Except.map (List.map fun l => l.negate.toValue)) (ofValues_toValue ls)

private theorem notAll_toValue (ls : List Literal) :
    (notAll (ls.map toValue) : Except Error (Encoder I Unit)) = .ok (.require (ls.map negate)) := by
  unfold notAll
  rw [mapM_negated]
  exact require_toValue (ls.map negate)

private theorem requireAll_toValue (cs : List (List Literal)) :
    (Checked.requireAll (cs.map (List.map toValue)) : Encoder I Unit) = .requireAll cs := by
  unfold Checked.requireAll Encoder.requireAll Encoder.each
  rw [Encoder.eachChosen_map]
  simp only [require_toValue]

/-- A loop whose rounds each add one clause. -/
private theorem eachChosen_eq_requireAll {ι κ : Type} {m : ι → κ} {f : κ → Except Error (Encoder I Unit)}
    {c : ι → List Literal} (items : List ι) (h : ∀ i, f (m i) = .ok (.require (c i))) :
    Checked.eachChosen (items.map m) (fun k => Construction.made (f k)) = .requireAll (items.map c) := by
  rw [Checked.eachChosen_eq_each items h]
  unfold Encoder.requireAll Encoder.each
  rw [Encoder.eachChosen_map]

private theorem atMostOne_eq (lits : List Value) : (atMostOne lits : Except Error (Encoder I Unit)) =
    (do return Cardinality.encodeAtMostOne (← ofValues lits)) := by
  unfold atMostOne
  apply bind_ofValues
  intro ls
  rw [pairs_map]
  exact congrArg Except.ok (eachChosen_eq_requireAll (pairs ls) fun p => notAll_toValue [p.1, p.2])

private theorem counter_toValue {ls : List Literal} {k : Nat} (hk : 1 ≤ k) (hn : k < ls.length) :
    (counter (ls.map toValue) k ⟨Counter.size ls.length k⟩ : Except Error (Encoder I Unit)) =
      .ok (.requireAll (Counter.clauses k (ls.map lift))) := by
  have hembedded : (ls.map toValue).mapM (fun v => do return (← embed v).toValue) =
      (.ok ((ls.map lift).map toValue) : Except Error (List Value)) := by
    rw [List.mapM_map, List.map_map]
    refine mapM_eq_map fun l _ => ?_
    show (do return (← embed l.toValue).toValue) = _
    rw [embed_eq, ofValue_toValue]
    rfl
  have hbuild := Counter.build_lift hk hn
  unfold counter
  rw [hembedded]
  show (do return Checked.requireAll (← Counter.build _ k ((ls.map lift).map toValue))) = _
  rw [hbuild]
  exact congrArg Except.ok (requireAll_toValue _)

omit [Index I] in
/-- A scope whose body is built without fail. -/
private theorem withFresh_eq_ok {α : Type} {n : Nat} {f : Scope → Except Error (Encoder I α)} {e : Encoder I α}
    (h : f ⟨n⟩ = .ok e) :
    Checked.withFresh (.int n) (.made fun scope => Construction.made (f scope)) = .ok (.withFresh n e) := by
  have hn : scopeSize (.int n) = .ok n := by simp [scopeSize]
  have hbody : (ScopeBody.made fun scope => Construction.made (f scope)).get ⟨n⟩ = .ok e := by
    show (f ⟨n⟩).map Supplied.encoder >>= Supplied.get = _
    rw [h]
    rfl
  unfold Checked.withFresh
  rw [hn]
  exact congrArg (fun body => do return Encoder.withFresh n (← body)) hbody

theorem atMost_eq (lits : List Value) (k : Int) : (atMost lits k : Except Error (Encoder I Unit)) =
    (do return Cardinality.encodeAtMost (← ofValues lits) k) := by
  unfold atMost
  apply bind_ofValues
  intro ls
  unfold Cardinality.encodeAtMost
  rw [List.length_map]
  show _ = Except.ok (if k < 0 then _ else _)
  split
  · exact require_toValue []
  split
  · rfl
  split
  · exact congrArg Except.ok (eachChosen_eq_requireAll ls fun l => notAll_toValue [l])
  · have hsize : ((ls.length : Int) - 1) * k = (Counter.size ls.length k.toNat : Nat) := by
      unfold Counter.size
      rw [Int.natCast_mul, Int.toNat_of_nonneg (by omega), Int.natCast_sub (by omega)]
      rfl
    rw [hsize]
    exact withFresh_eq_ok (counter_toValue (by omega) (by omega))

private theorem atLeast_eq (lits : List Value) (k : Int) : (atLeast lits k : Except Error (Encoder I Unit)) =
    (do return Cardinality.encodeAtLeast (← ofValues lits) k) := by
  unfold atLeast
  apply bind_ofValues
  intro ls
  unfold Cardinality.encodeAtLeast
  rw [List.length_map, mapM_negated]
  show _ = Except.ok (if k ≤ 0 then _ else _)
  split
  · rfl
  split
  · exact require_toValue []
  · refine (atMost_eq ((ls.map negate).map toValue) (ls.length - k)).trans ?_
    rw [ofValues_toValue]
    rfl

end Assembled

open Assembled Literal in
/-- A cardinality constraint is assembled as its literals are encoded at once, or fails at the first value that is
none. -/
theorem Cardinality.assemble_eq (c : Cardinality Value Int) :
    (c.assemble : Except Error (Encoder I Unit)) = c.boundValue.check.map encode := by
  cases c with
  | atLeastOne lits | atMostOne lits | exactlyOne lits =>
    simp only [assemble, boundValue, check, Checked.require, atMostOne_eq]
    cases ofValues lits <;> rfl
  | atMost lits k | atLeast lits k | exactly lits k =>
    simp only [assemble, boundValue, check, atMost_eq, atLeast_eq]
    cases ofValues lits <;> rfl

/-- An integer is its own bound, and literals are checked to be themselves. -/
private theorem Cardinality.check_map_toValue (c : Cardinality Literal Int) :
    (c.map Literal.toValue).boundValue.check = .ok c := by
  cases c <;> simp only [map, boundValue, check, Literal.ofValues_toValue] <;> rfl

/-- Building a constraint fails at its check or not at all. -/
theorem Cardinality.construct_eq (c : Cardinality Value Value) :
    (c.construct : Except Error (Encoder I Unit)) = c.check.map encode := by
  unfold construct
  cases c.check with
  | error x => rfl
  | ok c =>
    show (c.map Literal.toValue).assemble = .ok c.encode
    rw [assemble_eq, check_map_toValue]
    rfl

end Clausify
