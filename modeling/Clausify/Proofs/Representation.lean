import Clausify.Cardinality
import Clausify.Constraint
import Clausify.Gate
import Clausify.Proofs.Lockstep

/-!
# Representations of literals

The representation of a literal is what it has besides its variable and its polarity.  The plain representation leaves
nothing of it (`Literal.plain`).  States that differ in the representation of assumptions only are kept so by each
step, also for clauses whose literals differ in their representation (`State.bisimilar_respelled`), and gates and
bounds on such literals run in lockstep (`Gate.encode_lockstep`, `Cardinality.encode_lockstep`).
-/

namespace Clausify

/-! ### The plain representation -/

namespace Literal

/-- The literal given by its variable and its polarity. -/
def plain (l : Literal) : Literal := named l.var l.positive

private theorem plain_eq_iff {l k : Literal} : l.plain = k.plain ↔ l.var = k.var ∧ l.positive = k.positive := by
  unfold plain
  rw [named.injEq]

@[simp] theorem plain_plain (l : Literal) : l.plain.plain = l.plain := rfl

@[simp] theorem negate_plain (l : Literal) : l.plain.negate = l.negate.plain := by
  unfold plain
  rw [var_negate, positive_negate]
  rfl

theorem plain_negate_plain (l : Literal) : l.plain.negate.plain = l.negate.plain := by
  rw [negate_plain, plain_plain]

@[simp] theorem lift_plain (l : Literal) : l.plain.lift = l.lift := rfl

end Literal

namespace Value

/-- The value, with a literal given by its variable and its polarity. -/
def plain (v : Value) : Value :=
  match Literal.ofValue v with
  | .ok l => l.plain.toValue
  | .error _ => v

private theorem ofValue_plain (v : Value) : Literal.ofValue v.plain = (Literal.ofValue v).map Literal.plain := by
  unfold plain
  cases h : Literal.ofValue v with
  | ok l => exact Literal.ofValue_toValue _
  | error x => exact h

private theorem ofValues_plain (vs : List Value) :
    Literal.ofValues (vs.map plain) = (Literal.ofValues vs).map (List.map Literal.plain) := by
  have hvalue : Literal.ofValue ∘ plain = fun v => do return (← Literal.ofValue v).plain := funext ofValue_plain
  unfold Literal.ofValues
  rw [List.mapM_map, hvalue, mapM_return]
  cases vs.mapM Literal.ofValue <;> rfl

@[simp] theorem plain_toValue (l : Literal) : l.toValue.plain = l.plain.toValue := by
  unfold plain
  rw [Literal.ofValue_toValue]

/-- Values have the same plain representation if they are the same, or literals of the same variable and polarity. -/
theorem plain_eq_iff {v w : Value} : v.plain = w.plain ↔ v = w ∨
    ∃ l k, Literal.ofValue v = .ok l ∧ Literal.ofValue w = .ok k ∧ l.var = k.var ∧ l.positive = k.positive := by
  constructor
  · intro h
    have hresults : (Literal.ofValue v).map Literal.plain = (Literal.ofValue w).map Literal.plain := by
      rw [← ofValue_plain, ← ofValue_plain, h]
    unfold plain at h
    cases hv : Literal.ofValue v with
    | ok l =>
      cases hw : Literal.ofValue w with
      | ok k =>
        rw [hv, hw] at hresults
        exact .inr ⟨l, k, rfl, rfl, Literal.plain_eq_iff.1 (Except.ok.inj hresults)⟩
      | error y =>
        rw [hv, hw] at hresults
        cases hresults
    | error x =>
      cases hw : Literal.ofValue w with
      | ok k =>
        rw [hv, hw] at hresults
        cases hresults
      | error y =>
        rw [hv, hw] at h
        exact .inl h
  · rintro (rfl | ⟨l, k, hv, hw, hlk⟩)
    · rfl
    · unfold plain
      rw [hv, hw]
      exact congrArg Literal.toValue (Literal.plain_eq_iff.2 hlk)

end Value

/-! ### Results and states up to the representation -/

theorem SameResult.of_map_eq {ε α γ : Type} {f : α → γ} {x y : Except ε α} (h : x.map f = y.map f) :
    SameResult (fun a b => f a = f b) x y := by
  cases x with
  | error e =>
    cases y with
    | error e' =>
      cases h
      exact .error e
    | ok b => cases h
  | ok a =>
    cases y with
    | error e' => cases h
    | ok b => exact .ok (Except.ok.inj h)

theorem map_eq_iff_forall₂ {α γ : Type} {f : α → γ} {as bs : List α} :
    as.map f = bs.map f ↔ List.Forall₂ (fun a b => f a = f b) as bs := by
  rw [← List.forall₂_eq_eq_eq, List.forall₂_map_left_iff, List.forall₂_map_right_iff]

private theorem ofValue_same {v w : Value} (h : v.plain = w.plain) :
    SameResult (fun l k => l.plain = k.plain) (Literal.ofValue v) (Literal.ofValue w) := by
  refine .of_map_eq ?_
  rw [← Value.ofValue_plain, ← Value.ofValue_plain, h]

theorem ofValues_same {vs ws : List Value} (h : vs.map Value.plain = ws.map Value.plain) :
    SameResult (fun c d => c.map Literal.plain = d.map Literal.plain) (Literal.ofValues vs)
      (Literal.ofValues ws) := by
  refine .of_map_eq ?_
  rw [← Value.ofValues_plain, ← Value.ofValues_plain, h]

/-- A literal is embedded without anything of its representation. -/
theorem embed_same {v w : Value} (h : v.plain = w.plain) : Literal.embed v = Literal.embed w := by
  rw [Literal.embed_eq, Literal.embed_eq]
  have hsame := ofValue_same h
  generalize Literal.ofValue v = x at hsame
  generalize Literal.ofValue w = y at hsame
  cases hsame with
  | error e => rfl
  | @ok l k hlk =>
    show Except.ok l.lift = Except.ok k.lift
    rw [← Literal.lift_plain, hlk, Literal.lift_plain]

namespace State

variable {I : Type} {s t u v : State I}

/-- The states differ in the representation of assumptions only. -/
def Respelled (s t : State I) : Prop :=
  ∃ as, t = { s with assumptions := as } ∧ s.assumptions.map Value.plain = as.map Value.plain

theorem Respelled.refl (s : State I) : s.Respelled s := ⟨s.assumptions, rfl, rfl⟩

/-- What is done with values that should be literals, and looks at variables and polarities only. -/
private theorem mapM_same {α : Type} {f : Literal → Except Error α} (hf : ∀ l, f l.plain = f l) {vs ws : List Value}
    (h : vs.map Value.plain = ws.map Value.plain) :
    (vs.mapM fun v => Literal.ofValue v >>= f) = ws.mapM fun v => Literal.ofValue v >>= f := by
  have hvalue (v : Value) : (Literal.ofValue v.plain >>= f) = (Literal.ofValue v >>= f) := by
    rw [Value.ofValue_plain]
    cases Literal.ofValue v with
    | error x => rfl
    | ok l => exact hf l
  have hplain (vs : List Value) : ((vs.map Value.plain).mapM fun v => Literal.ofValue v >>= f) =
      vs.mapM fun v => Literal.ofValue v >>= f := by
    rw [List.mapM_map]
    exact congrArg (vs.mapM ·) (funext hvalue)
  rw [← hplain vs, h, hplain ws]

private theorem Respelled.eventIf (h : u.Respelled v) (record : Bool) (e : Event) :
    (u.eventIf record e).Respelled (v.eventIf record e) := by
  obtain ⟨as, rfl, has⟩ := h
  unfold State.eventIf
  split
  · exact ⟨as, rfl, has⟩
  · exact ⟨as, rfl, has⟩

private theorem Respelled.assuming (h : s.Respelled t) {gs hs : List Literal}
    (hgs : gs.map Literal.plain = hs.map Literal.plain) :
    Respelled { s with assumptions := s.assumptions ++ gs.map Literal.toValue }
      { t with assumptions := t.assumptions ++ hs.map Literal.toValue } := by
  obtain ⟨as, rfl, has⟩ := h
  refine ⟨_, rfl, ?_⟩
  have hvalues := congrArg (List.map Literal.toValue) hgs
  rw [List.map_map, List.map_map] at hvalues
  simp only [List.map_append, has, List.map_map, Function.comp_def, Value.plain_toValue] at hvalues ⊢
  rw [hvalues]

private theorem Respelled.path_openContext (h : s.Respelled t) (name : String) :
    (t.openContext name).path = (s.openContext name).path := by
  obtain ⟨as, rfl, -⟩ := h
  unfold State.openContext State.eventIf
  dsimp only
  split <;> rfl

private theorem Respelled.takeFresh (h : s.Respelled t) (n : Nat) :
    (s.takeFresh n).Respelled (t.takeFresh n) := by
  obtain ⟨as, rfl, has⟩ := h
  exact ⟨as, rfl, has⟩

/-- The scope sees the assumptions lifted, in which nothing of the representation is left. -/
theorem Respelled.enter (h : s.Respelled t) (base : Int) (n : Nat) :
    SameResult Respelled (s.enter base n) (t.enter base n) := by
  obtain ⟨as, rfl, has⟩ := h
  have hlifted := mapM_same (f := fun l => return l.lift.toValue) (fun _ => rfl) has
  rw [enter_eq, enter_eq]
  dsimp only
  rw [hlifted]
  generalize List.mapM (m := Except Error) _ as = r
  cases r with
  | error x => exact .error x
  | ok bs => exact .ok ⟨bs, rfl, rfl⟩

private theorem Respelled.leave (h : s.Respelled t) (h' : u.Respelled v) :
    SameOutcome Respelled Eq (s.leave u) (t.leave v) := by
  obtain ⟨as, rfl, has⟩ := h
  obtain ⟨bs, rfl, hbs⟩ := h'
  unfold State.leave
  dsimp only
  split
  · exact .error _ ⟨as, rfl, has⟩
  · exact .ok rfl ⟨as, rfl, has⟩

variable [Index I]

private theorem signedClause_same (s : State I) {as : List Value}
    (has : s.assumptions.map Value.plain = as.map Value.plain) {c d : List Literal}
    (hcd : c.map Literal.plain = d.map Literal.plain) :
    s.signedClause c = { s with assumptions := as }.signedClause d := by
  have hassumed := mapM_same (f := s.varMap.signedIndex) (fun _ => rfl) has
  have hplain (c : List Literal) : (c.map Literal.plain).mapM s.varMap.signedIndex = c.mapM s.varMap.signedIndex :=
    List.mapM_map
  have hclause : c.mapM s.varMap.signedIndex = d.mapM s.varMap.signedIndex := by rw [← hplain, hcd, hplain]
  unfold signedClause
  dsimp only
  rw [hassumed, hclause]

private theorem Respelled.addClause (h : s.Respelled t) {c d : List Literal}
    (hcd : c.map Literal.plain = d.map Literal.plain) : SameResult Respelled (s.addClause c) (t.addClause d) := by
  obtain ⟨as, rfl, has⟩ := h
  unfold State.addClause
  rw [← signedClause_same s has hcd]
  cases s.signedClause c with
  | error x => exact .error x
  | ok js =>
    have hcheck : { s with assumptions := as }.checkAllocated js = s.checkAllocated js := rfl
    dsimp only [Bind.bind, Except.bind]
    rw [hcheck]
    cases s.checkInvariants with
    | false => exact .ok ⟨as, rfl, has⟩
    | true =>
      simp only [if_true]
      cases s.checkAllocated js with
      | error x => exact .error x
      | ok _ => exact .ok ⟨as, rfl, has⟩

theorem bisimilar_respelled :
    State.Bisimilar (I := I) Respelled fun c d => c.map Literal.plain = d.map Literal.plain where
  nextVar_eq {s t} := by
    rintro ⟨as, rfl, -⟩
    rfl
  warn {s t} x := by
    rintro ⟨as, rfl, has⟩
    exact ⟨as, rfl, has⟩
  addClause h hcd := h.addClause hcd
  openContext {s t} name := by
    rintro ⟨as, rfl, has⟩
    refine Respelled.eventIf (u := State.notice { s with contexts := s.contexts ++ [name] } _) ?_ s.traceContexts _
    exact ⟨as, rfl, has⟩
  closeContext {s t} := by
    rintro ⟨as, rfl, has⟩
    exact ⟨as, rfl, has⟩
  contextLeft {s t u v} name h h' := by
    rw [h.path_openContext name]
    obtain ⟨as, rfl, -⟩ := h
    obtain ⟨bs, rfl, hbs⟩ := h'
    exact Respelled.eventIf ⟨bs, rfl, hbs⟩ _ _
  assuming h hgs := h.assuming hgs
  restore {s t u v} := by
    rintro ⟨as, rfl, has⟩ ⟨bs, rfl, hbs⟩
    exact ⟨as, rfl, has⟩
  takeFresh n h := h.takeFresh n
  enter {s t} n h := by
    have hnext : s.nextVar = t.nextVar := by
      obtain ⟨as, rfl, -⟩ := h
      rfl
    rw [hnext]
    exact (h.takeFresh n).enter _ n
  leave h h' := h.leave h'

end State

/-! ### Gates and bounds -/

variable {I α β γ ι κ : Type}

/-- The gate over other literals. -/
def Gate.map (f : ι → κ) : Gate ι → Gate κ
  | allImplyAny hyps concs => allImplyAny (hyps.map f) (concs.map f)
  | allImply hyps conc => allImply (hyps.map f) (f conc)
  | implyAny hyp concs => implyAny (f hyp) (concs.map f)
  | anyImplyAny hyps concs => anyImplyAny (hyps.map f) (concs.map f)
  | anyImply hyps conc => anyImply (hyps.map f) (f conc)
  | allImplyAll hyps concs => allImplyAll (hyps.map f) (concs.map f)
  | implyAll hyp concs => implyAll (f hyp) (concs.map f)
  | anyImplyAll hyps concs => anyImplyAll (hyps.map f) (concs.map f)
  | imply a b => imply (f a) (f b)
  | equivalent a b => equivalent (f a) (f b)
  | isAll v vs => isAll (f v) (vs.map f)
  | isAny v vs => isAny (f v) (vs.map f)
  | isIff v a b => isIff (f v) (f a) (f b)

namespace Gate

private theorem implication_plain (hyps concs : List Literal) :
    implication (hyps.map Literal.plain) (concs.map Literal.plain) = (implication hyps concs).map Literal.plain := by
  unfold implication
  simp only [List.map_append, List.map_map, Function.comp_def, Literal.negate_plain]

private theorem implication_plain_singleton (hyps : List Literal) (conc : Literal) :
    implication (hyps.map Literal.plain) [conc.plain] = (implication hyps [conc]).map Literal.plain :=
  implication_plain hyps [conc]

private theorem implication_singleton_plain (hyp : Literal) (concs : List Literal) :
    implication [hyp.plain] (concs.map Literal.plain) = (implication [hyp] concs).map Literal.plain :=
  implication_plain [hyp] concs

private theorem clauses_plain (g : Gate Literal) :
    (g.map Literal.plain).clauses = g.clauses.map (List.map Literal.plain) := by
  have hsingle (a b : Literal) : implication [a.plain] [b.plain] = (implication [a] [b]).map Literal.plain :=
    implication_plain [a] [b]
  have hpair (a b c : Literal) : implication [a.plain, b.plain] [c.plain] =
      (implication [a, b] [c]).map Literal.plain := implication_plain [a, b] [c]
  cases g <;> simp only [map, clauses, implication_plain, implication_plain_singleton, implication_singleton_plain,
    hsingle, hpair, List.map_cons, List.map_nil, List.map_append, List.map_map, List.map_flatMap, List.flatMap_map,
    Function.comp_def]

theorem check_plain (g : Gate Value) : (g.map Value.plain).check = g.check.map (map Literal.plain) := by
  cases g with
  | allImplyAny hyps concs | anyImplyAny hyps concs | allImplyAll hyps concs | anyImplyAll hyps concs =>
    simp only [map, check, Value.ofValues_plain]
    cases Literal.ofValues hyps <;> cases Literal.ofValues concs <;> rfl
  | allImply vs v | implyAny v vs | anyImply vs v | implyAll v vs | isAll v vs | isAny v vs =>
    simp only [map, check, Value.ofValues_plain, Value.ofValue_plain]
    cases Literal.ofValues vs <;> cases Literal.ofValue v <;> rfl
  | imply a b | equivalent a b =>
    simp only [map, check, Value.ofValue_plain]
    cases Literal.ofValue a <;> cases Literal.ofValue b <;> rfl
  | isIff v a b =>
    simp only [map, check, Value.ofValue_plain]
    cases Literal.ofValue v <;> cases Literal.ofValue a <;> cases Literal.ofValue b <;> rfl

end Gate

theorem Cardinality.check_plain (c : Cardinality Value Value) :
    (c.map Value.plain).check = c.check.map (map Literal.plain) := by
  cases c with
  | atLeastOne lits | atMostOne lits | exactlyOne lits =>
    simp only [map, check, Value.ofValues_plain]
    cases Literal.ofValues lits <;> rfl
  | atMost lits k | exactly lits k =>
    simp only [map, check, Value.ofValues_plain]
    cases Literal.ofValues lits with
    | error x => rfl
    | ok ls =>
      simp only [Except.map, Bind.bind, Except.bind, List.length_map]
      cases Bound.above ls.length k <;> rfl
  | atLeast lits k =>
    simp only [map, check, Value.ofValues_plain]
    cases Literal.ofValues lits with
    | error x => rfl
    | ok ls =>
      simp only [Except.map, Bind.bind, Except.bind, List.length_map]
      cases Bound.below ls.length k <;> rfl

/-! ### Encoders in lockstep -/

theorem map_same {f : Literal → γ} (hf : ∀ l, f l.plain = f l) {ls ks : List Literal}
    (h : ls.map Literal.plain = ks.map Literal.plain) : ls.map f = ks.map f := by
  have hplain (ls : List Literal) : (ls.map Literal.plain).map f = ls.map f := by
    rw [List.map_map]
    exact List.map_congr_left fun l _ => hf l
  rw [← hplain ls, h, hplain ks]

private theorem length_same {ls ks : List Literal} (h : ls.map Literal.plain = ks.map Literal.plain) :
    ls.length = ks.length := by
  have hl := congrArg List.length h
  rwa [List.length_map, List.length_map] at hl

theorem pairs_map (f : α → β) (as : List α) : pairs (as.map f) = (pairs as).map (Prod.map f f) := by
  induction as with
  | nil => rfl
  | cons a as ih => simp only [List.map_cons, pairs, ih, List.map_append, List.map_map, Function.comp_def, Prod.map]

open State Encoder

variable [Index I]

private theorem requireAll_lockstep {cs ds : List (List Literal)}
    (h : cs.map (List.map Literal.plain) = ds.map (List.map Literal.plain)) :
    Encoder.Lockstep (I := I) State.Respelled Eq (.requireAll cs) (.requireAll ds) :=
  bisimilar_respelled.requireAll (map_eq_iff_forall₂.1 h)

theorem Gate.encode_lockstep {g g' : Gate Literal} (h : g.map Literal.plain = g'.map Literal.plain) :
    Encoder.Lockstep (I := I) State.Respelled Eq g.encode g'.encode := by
  refine requireAll_lockstep ?_
  rw [← clauses_plain, h, clauses_plain]

namespace Cardinality

variable {ls ks : List Literal} (h : ls.map Literal.plain = ks.map Literal.plain)

include h

private theorem encodeAtMostOne_lockstep :
    Encoder.Lockstep (I := I) State.Respelled Eq (encodeAtMostOne ls) (encodeAtMostOne ks) := by
  have hplain (ls : List Literal) : (pairs ls).map (fun p => [p.1.negate.plain, p.2.negate.plain]) =
      (pairs (ls.map Literal.plain)).map fun p => [p.1.negate.plain, p.2.negate.plain] := by
    rw [pairs_map, List.map_map]
    simp only [Function.comp_def, Prod.map, Literal.plain_negate_plain]
  refine requireAll_lockstep ?_
  rw [List.map_map, List.map_map]
  exact (hplain ls).trans ((congrArg (fun ls => (pairs ls).map _) h).trans (hplain ks).symm)

private theorem encodeAtMost_lockstep (k : Int) :
    Encoder.Lockstep (I := I) State.Respelled Eq (encodeAtMost ls k) (encodeAtMost ks k) := by
  -- the counter sees the lifted literals, in which nothing of the representation is left
  have hlift : ls.map Literal.lift = ks.map Literal.lift := map_same (fun _ => rfl) h
  unfold encodeAtMost
  rw [length_same h, hlift]
  split
  · exact bisimilar_respelled.require rfl
  · split
    · exact bisimilar_respelled.pure rfl
    · split
      · refine requireAll_lockstep ?_
        rw [List.map_map, List.map_map]
        exact map_same (fun l => congrArg ([·]) l.plain_negate_plain) h
      · exact bisimilar_respelled.withFresh _ (requireAll_lockstep rfl)

private theorem encodeAtLeast_lockstep (k : Int) :
    Encoder.Lockstep (I := I) State.Respelled Eq (encodeAtLeast ls k) (encodeAtLeast ks k) := by
  unfold encodeAtLeast
  rw [length_same h]
  split
  · exact bisimilar_respelled.pure rfl
  · split
    · exact bisimilar_respelled.require rfl
    · refine encodeAtMost_lockstep ?_ _
      rw [List.map_map, List.map_map]
      exact map_same Literal.plain_negate_plain h

omit h

theorem encode_lockstep {c c' : Cardinality Literal Int} (h : c.map Literal.plain = c'.map Literal.plain) :
    Encoder.Lockstep (I := I) State.Respelled Eq c.encode c'.encode := by
  have hS := bisimilar_respelled (I := I)
  cases c with
  | atLeastOne ls =>
    cases c' with
    | atLeastOne ks => exact hS.require (by injection h)
    | _ => cases h
  | atMostOne ls =>
    cases c' with
    | atMostOne ks => exact encodeAtMostOne_lockstep (by injection h)
    | _ => cases h
  | exactlyOne ls =>
    cases c' with
    | exactlyOne ks =>
      injection h with h
      exact hS.seq (.cons (hS.require h) (.cons (encodeAtMostOne_lockstep h) .nil))
    | _ => cases h
  | atMost ls k =>
    cases c' with
    | atMost ks k' =>
      injection h with h hk
      cases hk
      exact encodeAtMost_lockstep h k
    | _ => cases h
  | atLeast ls k =>
    cases c' with
    | atLeast ks k' =>
      injection h with h hk
      cases hk
      exact encodeAtLeast_lockstep h k
    | _ => cases h
  | exactly ls k =>
    cases c' with
    | exactly ks k' =>
      injection h with h hk
      cases hk
      exact hS.seq (.cons (encodeAtMost_lockstep h k) (.cons (encodeAtLeast_lockstep h k) .nil))
    | _ => cases h

end Cardinality

theorem Expr.encode_lockstep (e : Expr) : Encoder.Lockstep (I := I) State.Respelled Eq e.encode e.encode := by
  have hS := bisimilar_respelled (I := I)
  refine hS.eachChosen (P := Eq) (R := Eq) (List.forall₂_same.2 fun _ _ => rfl) fun e e' he => ?_
  cases he
  refine .ok ?_
  show Encoder.Lockstep State.Respelled Eq (encodeConjunct e) (encodeConjunct e)
  unfold encodeConjunct
  split
  · exact hS.require rfl
  · refine hS.withFresh _ (hS.seq (R := Eq) (List.forall₂_same.2 fun f hf => ?_))
    rcases List.mem_append.1 hf with hf | hf
    · obtain ⟨g, -, rfl⟩ := List.mem_map.1 hf
      exact Gate.encode_lockstep rfl
    · cases List.mem_singleton.1 hf
      exact hS.require rfl

theorem Constraint.encode_lockstep (c : Constraint) :
    Encoder.Lockstep (I := I) State.Respelled Eq c.encode c.encode := by
  unfold encode
  cases c with
  | expr e => exact Expr.encode_lockstep e
  | atLeast k names => exact Cardinality.encode_lockstep rfl
  | atMost k names => exact Cardinality.encode_lockstep rfl
  | exactly k names => exact Cardinality.encode_lockstep rfl

end Clausify
