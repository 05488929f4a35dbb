import Clausify.Proofs.Inversion

/-!
# Guards

Guards change the assumptions around a body and nothing else, so they move into what the body is made of.  Guards of
guards add up, a guarded sequence is the sequence of its guarded parts, and guards pass through contexts and, lifted,
through temporary scopes (`Encoder.unlessAny_laws`).  Where one part comes after another, the first must put the
assumptions back, which composed encoders do.
-/

namespace Clausify

variable {I α β ι : Type} {g : List Literal} {s t : State I}

/-! ### Assumptions of a state -/

theorem Literal.ofValue_eq_ok {v : Value} {l : Literal} : ofValue v = .ok l ↔ v = l.toValue := by
  constructor
  · intro h
    unfold ofValue at h
    split at h
    · split at h
      · cases h
      · cases h
        rfl
    · cases h
      rfl
    · cases h
      rfl
    · cases h
  · rintro rfl
    exact ofValue_toValue l

theorem Literal.ofValues_eq_ok {vs : List Value} {ls : List Literal} :
    ofValues vs = .ok ls ↔ vs = ls.map toValue := by
  unfold ofValues
  rw [mapM_eq_ok]
  simp only [ofValue_eq_ok]
  rw [← List.forall₂_map_right_iff (R := Eq), List.forall₂_eq_eq_eq]

theorem Literal.ofValues_toValue (ls : List Literal) : ofValues (ls.map toValue) = .ok ls :=
  ofValues_eq_ok.2 rfl

namespace State

/-- The state with other assumptions. -/
def assume (s : State I) (as : List Value) : State I := { s with assumptions := as }

/-- The state with guards behind its assumptions. -/
def guarded (s : State I) (g : List Literal) : State I := s.assume (s.assumptions ++ g.map Literal.toValue)

private theorem assume_eventIf (as : List Value) (record : Bool) (e : Event) :
    (s.assume as).eventIf record e = (s.eventIf record e).assume as := by
  cases record <;> rfl

private theorem assume_openContext (as : List Value) (name : String) :
    (s.assume as).openContext name = (s.openContext name).assume as := by
  unfold openContext
  exact assume_eventIf (s := State.notice { s with contexts := s.contexts ++ [name] } _) as s.traceContexts _

private theorem assumptions_openContext (name : String) : (s.openContext name).assumptions = s.assumptions := by
  obtain ⟨j, hj⟩ := s.openContext_eq name
  rw [hj]

private theorem guarded_openContext (name : String) :
    (s.guarded g).openContext name = (s.openContext name).guarded g := by
  unfold guarded
  rw [assume_openContext, assumptions_openContext]

private theorem guarded_guarded (h : List Literal) : (s.guarded g).guarded h = s.guarded (g ++ h) := by
  unfold guarded assume
  rw [List.map_append, List.append_assoc]

/-- Where the assumptions were put back, the guards are still behind them. -/
private theorem eq_guarded_of_assumptions (h : t.assumptions = (s.guarded g).assumptions) :
    t = (t.assume s.assumptions).guarded g := by
  obtain ⟨n, cs, m, as, ctx, ci, tc, j⟩ := t
  cases h
  rfl

/-- Guards are lifted with the assumptions. -/
private theorem enter_guarded (base : Int) (n : Nat) :
    (s.guarded g).enter base n = (s.enter base n).map fun inner => inner.guarded (g.map Literal.lift) := by
  have hguards : (g.map Literal.toValue).mapM (fun v => do return (← Literal.ofValue v).lift.toValue) =
      (.ok ((g.map Literal.lift).map Literal.toValue) : Except Error (List Value)) := by
    rw [mapM_return Literal.ofValue fun l => l.lift.toValue, List.map_map]
    exact congrArg (Except.map fun ls => ls.map fun l => l.lift.toValue) (Literal.ofValues_toValue g)
  rw [enter_eq, enter_eq]
  unfold guarded assume
  dsimp only
  rw [List.mapM_append, hguards]
  cases s.assumptions.mapM (fun v => do return (← Literal.ofValue v).lift.toValue :
      Value → Except Error Value) <;> rfl

end State

namespace Encoder

/-! ### Guarded steps -/

/-- The outcome with other assumptions. -/
def released (as : List Value) : EStateM.Result Error (State I) α → EStateM.Result Error (State I) α
  | .ok a t => .ok a (t.assume as)
  | .error x t => .error x (t.assume as)

private theorem runOn_guarded (e : Encoder I α) :
    (unlessAny g e).runOn s = released s.assumptions (e.runOn (s.guarded g)) := by
  have hguarded : { s with assumptions := s.assumptions ++ g.map Literal.toValue } = s.guarded g := rfl
  rw [runOn_unlessAny, hguarded]
  cases e.runOn (s.guarded g) <;> rfl

private theorem runChosen_guarded (choice : Except Error (Encoder I α)) :
    runChosen (choice.map (unlessAny g)) s = released s.assumptions (runChosen choice (s.guarded g)) := by
  cases choice with
  | error x => rfl
  | ok e => exact runOn_guarded e

/-! ### Laws -/

private theorem released_released (as bs : List Value) (r : EStateM.Result Error (State I) α) :
    released as (released bs r) = released as r := by
  cases r <;> rfl

private theorem unlessAny_unlessAny (h : List Literal) (e : Encoder I α) :
    (unlessAny g (unlessAny h e)).runOn s = (unlessAny (g ++ h) e).runOn s := by
  rw [runOn_guarded, runOn_guarded, runOn_guarded, released_released, State.guarded_guarded]

private theorem unlessAny_context (name : String) (e : Encoder I α) :
    (unlessAny g (context name e)).runOn s = (context name (unlessAny g e)).runOn s := by
  rw [runOn_guarded, runOn_context, runOn_context, runOn_guarded, State.guarded_openContext,
    State.assumptions_openContext]
  cases e.runOn ((s.openContext name).guarded g) with
  | ok a t =>
    unfold released
    dsimp only
    rw [← State.assume_eventIf]
    rfl
  | error x t => rfl

/-- A scope is left with the assumptions around it, whatever those inside are. -/
private theorem leave_guarded (as : List Value) (t : State I) :
    released s.assumptions ((s.guarded g).leave t) = s.leave (t.assume as) := by
  show released s.assumptions (if t.nextVar < s.nextVar then _ else _) = if t.nextVar < s.nextVar then _ else _
  split <;> rfl

private theorem unlessAny_withFresh (n : Nat) (e : Encoder I α) :
    (unlessAny g (withFresh n e)).runOn s = (withFresh n (unlessAny (g.map Literal.lift) e)).runOn s := by
  have htake : (s.guarded g).takeFresh n = (s.takeFresh n).guarded g := rfl
  have hnext : (s.guarded g).nextVar = s.nextVar := rfl
  have hleave (as : List Value) (t : State I) := leave_guarded (s := s.takeFresh n) (g := g) as t
  rw [runOn_guarded, runOn_withFresh, runOn_withFresh, htake, hnext, State.enter_guarded]
  cases (s.takeFresh n).enter s.nextVar n with
  | error x => rfl
  | ok inner =>
    dsimp only [Except.map]
    rw [runOn_guarded]
    cases e.runOn (inner.guarded (g.map Literal.lift)) with
    | ok a t =>
      dsimp only [released]
      rw [← hleave]
      cases ((s.takeFresh n).guarded g).leave t <;> rfl
    | error x t =>
      dsimp only [released]
      rw [← hleave]
      cases ((s.takeFresh n).guarded g).leave t <;> rfl

/-- Guards around a chain stand around both of its parts, if the first one puts the assumptions back. -/
private theorem unlessAny_bind {e : Encoder I α} (he : ∀ s, (e.after s).assumptions = s.assumptions)
    (f : α → Except Error (Encoder I β)) :
    (unlessAny g (e.bind f)).runOn s = ((unlessAny g e).bind fun a => (f a).map (unlessAny g)).runOn s := by
  rw [runOn_guarded, runOn_bind, runOn_bind]
  show released s.assumptions (EStateM.bind e.runOn _ (s.guarded g)) = EStateM.bind (unlessAny g e).runOn _ s
  unfold EStateM.bind
  rw [runOn_guarded]
  have hput := he (s.guarded g)
  cases hr : e.runOn (s.guarded g) with
  | error x t => rfl
  | ok a t =>
    rw [after_of_ok hr] at hput
    have ht := State.eq_guarded_of_assumptions hput
    show released s.assumptions (runChosen (f a) t) = runChosen ((f a).map (unlessAny g)) (t.assume s.assumptions)
    rw [runChosen_guarded, ← ht]
    rfl

/-- Guards around a loop stand around each of its rounds, if the rounds put the assumptions back. -/
private theorem unlessAny_eachChosen {items : List ι} {f : ι → Except Error (Encoder I α)}
    (hf : ∀ i ∈ items, ∀ e, f i = .ok e → ∀ s, (e.after s).assumptions = s.assumptions) :
    (unlessAny g (eachChosen items f)).runOn s = (eachChosen items fun i => (f i).map (unlessAny g)).runOn s := by
  induction items generalizing s with
  | nil =>
    rw [runOn_guarded, runOn_eachChosen, runOn_eachChosen]
    rfl
  | cons i is ih =>
    obtain ⟨hi, his⟩ := List.forall_mem_cons.1 hf
    rw [runOn_guarded, runOn_eachChosen_cons, runOn_eachChosen_cons, runChosen_guarded]
    cases hr : runChosen (f i) (s.guarded g) with
    | error x t => rfl
    | ok a t =>
      -- The round put the assumptions back, so the guards stand around the others as well.
      obtain ⟨e, hchoice, he⟩ := runChosen_eq_ok.1 hr
      have hput := hi e hchoice (s.guarded g)
      rw [after_of_ok he] at hput
      have ht := State.eq_guarded_of_assumptions hput
      show released s.assumptions ((eachChosen is f).runOn t) =
        (eachChosen is fun i => (f i).map (unlessAny g)).runOn (t.assume s.assumptions)
      rw [← ih his, runOn_guarded, ← ht]
      rfl

private theorem unlessAny_seq {es : List (Encoder I α)}
    (hes : ∀ e ∈ es, ∀ s, (e.after s).assumptions = s.assumptions) :
    (unlessAny g (seq es)).runOn s = (seq (es.map (unlessAny g))).runOn s := by
  have hrounds : ∀ e ∈ es, ∀ f, (.ok e : Except Error (Encoder I α)) = .ok f →
      ∀ s, (f.after s).assumptions = s.assumptions := by
    intro e he f hf
    cases hf
    exact hes e he
  rw [← each_eq_seq]
  exact unlessAny_eachChosen hrounds

private theorem choice_unlessAny (body : Except Error (Supplied I α)) :
    (do (← (do return .encoder (← Checked.unlessAny (g.map Literal.toValue) (← body)) :
        Except Error (Supplied I α))).get) = Except.map (unlessAny g) (do (← body).get) := by
  unfold Checked.unlessAny
  rw [Literal.ofValues_toValue]
  rcases body with x | ⟨e⟩ | ⟨kind⟩ <;> rfl

variable [Index I]

/-- Guards of guards add up.  Guards around a chain, a sequence or a loop of composed encoders may stand around each
of them instead, those around a context inside of it, and those around a temporary scope inside of it if they are
lifted.  Both ways have the same value or error and leave the same state, wherever a part fails. -/
theorem unlessAny_laws (g h : List Literal) (name : String) (n : Nat) (s : State I) :
    (∀ e : Encoder I α, (unlessAny g (unlessAny h e)).runOn s = (unlessAny (g ++ h) e).runOn s) ∧
    (∀ (e : Encoder I α) (f : α → Except Error (Encoder I β)), e.Composed →
      (unlessAny g (e.bind f)).runOn s = ((unlessAny g e).bind fun a => (f a).map (unlessAny g)).runOn s) ∧
    (∀ es : List (Encoder I α), (∀ e ∈ es, e.Composed) →
      (unlessAny g (seq es)).runOn s = (seq (es.map (unlessAny g))).runOn s) ∧
    (∀ (items : List ι) (f : ι → Except Error (Supplied I α)),
      (∀ i ∈ items, ∀ e, f i = .ok (.encoder e) → e.Composed) →
      (unlessAny g (Checked.eachChosen items f)).runOn s = (Checked.eachChosen items fun i => do
        return .encoder (← Checked.unlessAny (g.map Literal.toValue) (← f i))).runOn s) ∧
    (∀ e : Encoder I α, (unlessAny g (context name e)).runOn s = (context name (unlessAny g e)).runOn s) ∧
    ∀ e : Encoder I α, (unlessAny g (withFresh n e)).runOn s =
      (withFresh n (unlessAny (g.map Literal.lift) e)).runOn s := by
  refine ⟨unlessAny_unlessAny h, fun e f he => ?_, fun es hes => ?_, fun items f hf => ?_, unlessAny_context name,
    unlessAny_withFresh n⟩
  · exact unlessAny_bind (fun s => (he.frame s).assumptions_eq) f
  · exact unlessAny_seq fun e he s => ((hes e he).frame s).assumptions_eq
  · have hrestores : ∀ i ∈ items, ∀ e, (do (← f i).get) = .ok e → ∀ s, (e.after s).assumptions = s.assumptions := by
      intro i hi e hchoice s
      obtain ⟨body, hbody, hget⟩ := bind_eq_ok.1 hchoice
      cases body with
      | other kind => cases hget
      | encoder e =>
        cases hget
        exact ((hf i hi e hbody).frame s).assumptions_eq
    unfold Checked.eachChosen
    rw [unlessAny_eachChosen hrestores]
    simp only [choice_unlessAny]

/-- The second of two guarded steps fails inside a temporary scope.  The clauses before that have the guard. -/
theorem unlessAny_laws_of_failing_scope :
    let s : State Int := .initial (.ofTable (.ofList [(.str "a", 1), (.str "b", 2)])) true true .empty
    let a := Literal.named (.str "a") true
    let es : List (Encoder Int Unit) := [require [.named (.str "b") false],
      withFresh 1 (seq [require [.temp 0 true], require [.temp 1 true]])]
    (∀ e ∈ es, e.Composed) ∧ (unlessAny [a] (seq es)).runOn s = (seq (es.map (unlessAny [a]))).runOn s ∧
      (unlessAny [a] (Checked.eachChosen es fun e => .ok (.encoder e))).runOn s = (Checked.eachChosen es fun e => do
        return .encoder (← Checked.unlessAny [a.toValue] (.encoder e))).runOn s ∧
      ((seq (es.map (unlessAny [a]))).after s).clauses = [[1, -2], [1, 3]] := by
  intro s a es
  have hes : ∀ e ∈ es, e.Composed := by
    intro e he
    simp only [es, List.mem_cons, List.not_mem_nil, or_false] at he
    rcases he with rfl | rfl
    · exact composed_require _
    · refine .withFresh _ (.seq fun f hf => ?_)
      simp only [List.mem_cons, List.not_mem_nil, or_false] at hf
      rcases hf with rfl | rfl <;> exact composed_require _
  have hlaws := @unlessAny_laws Int Unit Unit (Encoder Int Unit) _ [a] [] "c" 1 s
  refine ⟨hes, hlaws.2.2.1 es hes, hlaws.2.2.2.1 es _ fun e he f hf => ?_, rfl⟩
  cases hf
  exact hes e he

end Encoder

end Clausify
