import Clausify.Proofs.Program
import Clausify.Proofs.Success

/-!
# Two runs in lockstep

Two encoders run in lockstep if from related states they end with related values or the same error, in related states
again (`Encoder.Lockstep`).  For a relation that each step of the library keeps (`State.Bisimilar`), encoders that are
composed in the same way from parts in lockstep are in lockstep, one rule for each way to compose them.  In particular
a program is in lockstep with itself (`State.Bisimilar.program`).
-/

namespace Clausify

variable {ε σ τ α β γ δ ι κ : Type}

/-! ### Same outcomes -/

/-- Related values, or the same error. -/
inductive SameResult (R : α → β → Prop) : Except ε α → Except ε β → Prop where
  | ok {a : α} {b : β} : R a b → SameResult R (.ok a) (.ok b)
  | error (x : ε) : SameResult R (.error x) (.error x)

/-- Related values or the same error, in related states. -/
inductive SameOutcome (S : σ → τ → Prop) (R : α → β → Prop) :
    EStateM.Result ε σ α → EStateM.Result ε τ β → Prop where
  | ok {a : α} {b : β} {s : σ} {t : τ} : R a b → S s t → SameOutcome S R (.ok a s) (.ok b t)
  | error (x : ε) {s : σ} {t : τ} : S s t → SameOutcome S R (.error x s) (.error x t)

namespace SameResult

variable {R : α → β → Prop} {Q : γ → δ → Prop} {x : Except ε α} {y : Except ε β}

theorem bind {f : α → Except ε γ} {g : β → Except ε δ} (h : SameResult R x y)
    (hf : ∀ a b, R a b → SameResult Q (f a) (g b)) : SameResult Q (x >>= f) (y >>= g) := by
  cases h with
  | ok hab => exact hf _ _ hab
  | error e => exact .error e

theorem map {f : α → γ} {g : β → δ} (h : SameResult R x y) (hf : ∀ a b, R a b → Q (f a) (g b)) :
    SameResult Q (x.map f) (y.map g) := by
  cases h with
  | ok hab => exact .ok (hf _ _ hab)
  | error e => exact .error e

theorem mapM {f : α → Except ε γ} {g : β → Except ε δ} {as : List α} {bs : List β} (h : List.Forall₂ R as bs)
    (hf : ∀ a b, R a b → SameResult Q (f a) (g b)) :
    SameResult (List.Forall₂ Q) (as.mapM f) (bs.mapM g) := by
  induction h with
  | nil => exact .ok .nil
  | cons hab _ ih =>
    rw [List.mapM_cons, List.mapM_cons]
    exact (hf _ _ hab).bind fun c d hcd => ih.bind fun cs ds hcds => .ok (.cons hcd hcds)

end SameResult

/-! ### Relations that each step keeps -/

variable {I : Type}

/-- A relation between states that is kept when both take the same step.  Clauses and guards may differ as `L`
allows. -/
structure State.Bisimilar [Index I] (S : State I → State I → Prop)
    (L : List Literal → List Literal → Prop) : Prop where
  nextVar_eq {s t : State I} : S s t → s.nextVar = t.nextVar
  warn {s t : State I} (x : Error) : S s t → S (s.warn x) (t.warn x)
  addClause {s t : State I} {c d : List Literal} :
    S s t → L c d → SameResult S (s.addClause c) (t.addClause d)
  openContext {s t : State I} (name : String) : S s t → S (s.openContext name) (t.openContext name)
  closeContext {s t : State I} : S s t → S s.closeContext t.closeContext
  contextLeft {s t u v : State I} (name : String) : S s t → S u v →
    S (u.eventIf s.traceContexts (.contextLeft (s.openContext name).path u.nextVar u.clauses.length))
      (v.eventIf t.traceContexts (.contextLeft (t.openContext name).path v.nextVar v.clauses.length))
  assuming {s t : State I} {gs hs : List Literal} : S s t → L gs hs →
    S { s with assumptions := s.assumptions ++ gs.map Literal.toValue }
      { t with assumptions := t.assumptions ++ hs.map Literal.toValue }
  restore {s t u v : State I} : S s t → S u v →
    S { u with assumptions := s.assumptions } { v with assumptions := t.assumptions }
  takeFresh {s t : State I} (n : Nat) : S s t → S (s.takeFresh n) (t.takeFresh n)
  enter {s t : State I} (n : Nat) : S s t →
    SameResult S ((s.takeFresh n).enter s.nextVar n) ((t.takeFresh n).enter t.nextVar n)
  leave {s t u v : State I} : S s t → S u v → SameOutcome S Eq (s.leave u) (t.leave v)

namespace Encoder

/-- From related states the encoders end with related values or the same error, in related states. -/
def Lockstep (S : State I → State I → Prop) (R : α → β → Prop) (e : Encoder I α) (f : Encoder I β) : Prop :=
  ∀ s t, S s t → SameOutcome S R (e.runOn s) (f.runOn t)

private theorem Lockstep.imp {S : State I → State I → Prop} {R R' : α → β → Prop} {e : Encoder I α} {f : Encoder I β}
    (h : Lockstep S R e f) (hR : ∀ a b, R a b → R' a b) : Lockstep S R' e f := by
  intro s t hst
  have hr := h s t hst
  generalize e.runOn s = r at hr ⊢
  generalize f.runOn t = r' at hr ⊢
  cases hr with
  | error x hend => exact .error x hend
  | ok hab hend => exact .ok (hR _ _ hab) hend

end Encoder

namespace State.Bisimilar

open Encoder

variable [Index I] {S : State I → State I → Prop} {L : List Literal → List Literal → Prop} {R : α → β → Prop}
  {Q : γ → δ → Prop} (hS : State.Bisimilar S L)

include hS

/-- Steps in lockstep stay so when the counter is checked behind them. -/
private theorem of_step {e : Encoder I α} {f : Encoder I β}
    (h : ∀ s t, S s t → SameOutcome S R (e.step s) (f.step t)) : Lockstep S R e f := by
  intro s t hst
  have hr := h s t hst
  unfold runOn
  generalize e.step s = r at hr
  generalize f.step t = r' at hr
  cases hr with
  | error x hend => exact .error x hend
  | ok hab hend =>
    dsimp only
    rw [hS.nextVar_eq hst, hS.nextVar_eq hend]
    split
    · exact .error _ hend
    · exact .ok hab hend

private theorem runChosen {x : Except Error (Encoder I α)} {y : Except Error (Encoder I β)}
    (h : SameResult (Lockstep S R) x y) {s t : State I} (hst : S s t) :
    SameOutcome S R (Encoder.runChosen x s) (Encoder.runChosen y t) := by
  cases h with
  | ok he => exact he s t hst
  | error e => exact .error e (hS.warn e hst)

/-! ### Order -/

theorem pure {a : α} {b : β} (h : R a b) : Lockstep S R (.pure a : Encoder I α) (.pure b) :=
  hS.of_step fun _ _ hst => .ok h hst

theorem bind {e : Encoder I α} {f : Encoder I β} {k : α → Except Error (Encoder I γ)}
    {l : β → Except Error (Encoder I δ)} (h : Lockstep S R e f)
    (hk : ∀ a b, R a b → SameResult (Lockstep S Q) (k a) (l b)) : Lockstep S Q (e.bind k) (f.bind l) := by
  refine hS.of_step fun s t hst => ?_
  rw [bind_step, bind_step]
  have hr := h s t hst
  generalize e.runOn s = r at hr
  generalize f.runOn t = r' at hr
  cases hr with
  | error x hend => exact .error x hend
  | ok hab hmid => exact hS.runChosen (hk _ _ hab) hmid

theorem andThen {e : Encoder I α} {f : Encoder I β} {e' : Encoder I γ} {f' : Encoder I δ} (h : Lockstep S R e f)
    (h' : Lockstep S Q e' f') : Lockstep S Q (e.andThen e') (f.andThen f') :=
  hS.bind (k := fun _ => .ok e') (l := fun _ => .ok f') h fun _ _ _ => .ok h'

theorem map {e : Encoder I α} {f : Encoder I β} {k : α → γ} {l : β → δ} (h : Lockstep S R e f)
    (hk : ∀ a b, R a b → Q (k a) (l b)) : Lockstep S Q (e.map k) (f.map l) := by
  refine hS.of_step fun s t hst => ?_
  show SameOutcome S Q (EStateM.bind e.runOn (fun a => EStateM.pure (k a)) s)
    (EStateM.bind f.runOn (fun b => EStateM.pure (l b)) t)
  unfold EStateM.bind
  have hr := h s t hst
  generalize e.runOn s = r at hr
  generalize f.runOn t = r' at hr
  cases hr with
  | error x hend => exact .error x hend
  | ok hab hend => exact .ok (hk _ _ hab) hend

theorem eachChosen {is : List ι} {js : List κ} {P : ι → κ → Prop} {k : ι → Except Error (Encoder I α)}
    {l : κ → Except Error (Encoder I β)} (h : List.Forall₂ P is js)
    (hk : ∀ i j, P i j → SameResult (Lockstep S R) (k i) (l j)) :
    Lockstep S Eq (Encoder.eachChosen is k) (Encoder.eachChosen js l) := by
  refine hS.of_step fun s t hst => ?_
  induction h generalizing s t with
  | nil => exact .ok rfl hst
  | cons hij _ ih =>
    rw [eachChosen_cons_step, eachChosen_cons_step]
    have hr := hS.runChosen (hk _ _ hij) hst
    generalize Encoder.runChosen _ s = r at hr
    generalize Encoder.runChosen _ t = r' at hr
    cases hr with
    | error x hend => exact .error x hend
    | ok _ hmid => exact ih _ _ hmid

theorem seq {es : List (Encoder I α)} {fs : List (Encoder I β)} (h : List.Forall₂ (Lockstep S R) es fs) :
    Lockstep S Eq (Encoder.seq es) (Encoder.seq fs) :=
  hS.eachChosen (k := .ok) (l := .ok) h fun _ _ => .ok

/-! ### Clauses and scopes -/

theorem require {c d : List Literal} (h : L c d) : Lockstep S Eq (Encoder.require c) (Encoder.require d) := by
  refine hS.of_step fun s t hst => ?_
  unfold Encoder.require
  dsimp only
  have hr := hS.addClause hst h
  generalize s.addClause c = r at hr
  generalize t.addClause d = r' at hr
  cases hr with
  | ok hend => exact .ok rfl hend
  | error x => exact .error x hst

theorem requireAll {cs ds : List (List Literal)} (h : List.Forall₂ L cs ds) :
    Lockstep S Eq (Encoder.requireAll cs) (Encoder.requireAll ds) :=
  hS.eachChosen h fun _ _ hcd => .ok (hS.require hcd)

theorem context {e : Encoder I α} {f : Encoder I β} (name : String) (h : Lockstep S R e f) :
    Lockstep S R (Encoder.context name e) (Encoder.context name f) := by
  refine hS.of_step fun s t hst => ?_
  unfold Encoder.context
  dsimp only
  have hr := h _ _ (hS.openContext name hst)
  generalize e.runOn (s.openContext name) = r at hr
  generalize f.runOn (t.openContext name) = r' at hr
  cases hr with
  | error x hend => exact .error x (hS.closeContext hend)
  | ok hab hend => exact .ok hab (hS.contextLeft name hst (hS.closeContext hend))

theorem unlessAny {e : Encoder I α} {f : Encoder I β} {gs hs : List Literal} (hg : L gs hs) (h : Lockstep S R e f) :
    Lockstep S R (Encoder.unlessAny gs e) (Encoder.unlessAny hs f) := by
  refine hS.of_step fun s t hst => ?_
  unfold Encoder.unlessAny
  dsimp only
  have hr := h _ _ (hS.assuming hst hg)
  generalize e.runOn _ = r at hr
  generalize f.runOn _ = r' at hr
  cases hr with
  | error x hend => exact .error x (hS.restore hst hend)
  | ok hab hend => exact .ok hab (hS.restore hst hend)

theorem withFresh {e : Encoder I α} {f : Encoder I β} (n : Nat) (h : Lockstep S R e f) :
    Lockstep S R (Encoder.withFresh n e) (Encoder.withFresh n f) := by
  refine hS.of_step fun s t hst => ?_
  have htaken := hS.takeFresh n hst
  unfold Encoder.withFresh
  dsimp only
  have hentered := hS.enter n hst
  generalize (s.takeFresh n).enter s.nextVar n = r at hentered
  generalize (t.takeFresh n).enter t.nextVar n = r' at hentered
  cases hentered with
  | error x => exact .error x htaken
  | @ok inner inner' hinner =>
    dsimp only
    have hr := h _ _ hinner
    generalize e.runOn inner = q at hr
    generalize f.runOn inner' = q' at hr
    -- the scope is closed in the same way whether the body succeeded or failed
    cases hr with
    | @error x u v hend =>
      dsimp only
      have hleft := hS.leave htaken hend
      generalize (s.takeFresh n).leave u = l at hleft
      generalize (t.takeFresh n).leave v = l' at hleft
      cases hleft with
      | ok _ hlast => exact .error x hlast
      | error y hlast => exact .error y hlast
    | @ok a b u v hab hend =>
      dsimp only
      have hleft := hS.leave htaken hend
      generalize (s.takeFresh n).leave u = l at hleft
      generalize (t.takeFresh n).leave v = l' at hleft
      cases hleft with
      | ok _ hlast => exact .ok hab hlast
      | error y hlast => exact .error y hlast

theorem attempt {e : Encoder I α} {f : Encoder I β} (h : Lockstep S R e f) :
    Lockstep S (SameResult R) e.attempt f.attempt := by
  refine hS.of_step fun s t hst => ?_
  unfold Encoder.attempt
  dsimp only
  have hr := h s t hst
  generalize e.runOn s = r at hr
  generalize f.runOn t = r' at hr
  cases hr with
  | error x hend => exact .ok (.error x) hend
  | ok hab hend => exact .ok (.ok hab) hend

/-! ### Programs -/

/-- Where related states show the same, a program is in lockstep with itself. -/
theorem program (hsnapshot : ∀ s t, S s t → s.snapshot = t.snapshot) (hL : ∀ c, L c c) (p : Program α) :
    Lockstep S Eq p.encoder p.encoder := by
  have hchoice {α : Type} {p : Program α} (h : Lockstep S Eq p.encoder p.encoder) :
      SameResult (Lockstep S Eq) (p.choice (I := I)) p.choice := by
    unfold Program.choice
    split
    · exact .error _
    · exact .ok h
  induction p with
  | pure a => exact hS.pure rfl
  | fail x => exact hS.of_step fun _ _ hst => .error x (hS.warn x hst)
  | bind p f ihp ihf =>
    rw [Program.encoder_bind]
    refine hS.bind ihp fun a b hab => ?_
    cases hab
    exact hchoice (ihf a)
  | each items f ih =>
    rw [Program.encoder_each]
    refine hS.eachChosen (R := Eq) (List.forall₂_same.2 fun _ _ => rfl) fun i j hij => ?_
    cases hij
    exact hchoice (ih i)
  | snapshot =>
    refine hS.of_step fun s t hst => ?_
    show SameOutcome S Eq (.ok s.snapshot s) (.ok t.snapshot t)
    exact .ok (hsnapshot s t hst) hst
  | require clause => exact hS.require (hL clause)
  | context name p ih => exact hS.context name ih
  | unlessAny guards p ih => exact hS.unlessAny (hL guards) ih
  | withFresh n p ih => exact hS.withFresh n ih
  | attempt p ih =>
    refine (hS.attempt ih).imp fun a b hab => ?_
    cases hab with
    | ok hab => exact congrArg Except.ok hab
    | error x => rfl

end State.Bisimilar

end Clausify
