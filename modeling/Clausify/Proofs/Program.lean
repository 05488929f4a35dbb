import Clausify.Constraint

/-!
# Programs

A `Program` is an encoder as it is composed: the steps that the library offers, sequences whose continuation looks
at values, loops, contexts, guards and temporary scopes, and steps of a client that catch the failure of a part.
`Program.encoder` is the encoder so composed.  The other operations lead to encoders of programs too.

What an encoder does to the state, whether it succeeds or fails, is `Encoder.after`.  A relation that holds across
each step and composes (`Closed`) holds across every program (`Closed.rel_after`).
-/

namespace Clausify

/-- The state at the end of a computation, whether it succeeded or failed. -/
def endState {ε σ α : Type} : EStateM.Result ε σ α → σ
  | .ok _ s => s
  | .error _ s => s

@[simp] theorem endState_ok {ε σ α : Type} (a : α) (s : σ) :
    endState (.ok a s : EStateM.Result ε σ α) = s := rfl

@[simp] theorem endState_error {ε σ α : Type} (x : ε) (s : σ) :
    endState (.error x s : EStateM.Result ε σ α) = s := rfl

/-! ### What an encoder does to the state -/

namespace Encoder

variable {I α β ι : Type}

/-- The state that an encoder leaves behind, whether it succeeds or fails. -/
def after (e : Encoder I α) (s : State I) : State I := endState (e.runOn s)

theorem after_of_ok {e : Encoder I α} {s t : State I} {a : α} (h : e.runOn s = .ok a t) : e.after s = t := by
  rw [after, h, endState_ok]

theorem after_of_error {e : Encoder I α} {s t : State I} {x : Error} (h : e.runOn s = .error x t) :
    e.after s = t := by
  rw [after, h, endState_error]

theorem after_eq_step (e : Encoder I α) (s : State I) : e.after s = endState (e.step s) := by
  unfold after runOn
  split
  · rename_i a t h
    rw [h]
    split <;> rfl
  · rename_i x t h
    rw [h]

/-- An encoder that does not set the next free index back does what its step does. -/
theorem runOn_of_le {e : Encoder I α} {s : State I} (h : s.nextVar ≤ (e.after s).nextVar) :
    e.runOn s = e.step s := by
  rw [after_eq_step] at h
  unfold runOn
  split
  · rename_i a t ht
    rw [ht] at h ⊢
    have : ¬ t.nextVar < s.nextVar := by simpa using h
    rw [if_neg this]
  · rename_i x t ht
    rw [ht]

/-- An encoder succeeds exactly if its step does and does not set the next free index back. -/
theorem runOn_eq_ok_iff {e : Encoder I α} {s t : State I} {a : α} :
    e.runOn s = .ok a t ↔ e.step s = .ok a t ∧ s.nextVar ≤ t.nextVar := by
  unfold runOn
  cases e.step s with
  | error x u => simp
  | ok b u =>
    by_cases hn : u.nextVar < s.nextVar
    · simp only [if_pos hn]
      constructor
      · intro h
        cases h
      · rintro ⟨h, hle⟩
        cases h
        omega
    · simp only [if_neg hn]
      constructor
      · intro h
        cases h
        exact ⟨rfl, Int.not_lt.1 hn⟩
      · exact fun h => h.1

theorem bind_step (e : Encoder I α) (f : α → Except Error (Encoder I β)) (s : State I) :
    (e.bind f).step s = match e.runOn s with
      | .ok a t => runChosen (f a) t
      | .error x t => .error x t := by
  show EStateM.bind e.runOn (fun a => runChosen (f a)) s = _
  unfold EStateM.bind
  cases e.runOn s <;> rfl

theorem eachChosen_cons_step (i : ι) (is : List ι) (f : ι → Except Error (Encoder I α)) (s : State I) :
    (eachChosen (i :: is) f).step s = match runChosen (f i) s with
      | .ok _ t => (eachChosen is f).step t
      | .error x t => .error x t := by
  unfold eachChosen
  simp only [List.forM_eq_forM, List.forM_cons]
  show EStateM.bind (EStateM.bind (runChosen (f i)) fun _ => EStateM.pure ()) _ s = _
  unfold EStateM.bind
  cases runChosen (f i) s <;> rfl

theorem context_after (name : String) (e : Encoder I α) (s : State I) :
    let t := (e.after (s.openContext name)).closeContext
    (context name e).after s = t ∨
      ∃ path, (context name e).after s = t.event (.contextLeft path t.nextVar t.clauses.length) := by
  intro t
  rw [after_eq_step]
  simp only [context]
  cases hr : e.runOn (s.openContext name) with
  | ok a u =>
    have ht : t = u.closeContext := congrArg State.closeContext (after_of_ok hr)
    simp only [endState_ok, State.eventIf, ht]
    split
    · exact .inr ⟨_, rfl⟩
    · exact .inl rfl
  | error x u => exact .inl (congrArg State.closeContext (after_of_error hr).symm)

theorem unlessAny_after (guards : List Literal) (e : Encoder I α) (s : State I) :
    (unlessAny guards e).after s =
      { e.after { s with assumptions := s.assumptions ++ guards.map Literal.toValue } with
        assumptions := s.assumptions } := by
  rw [after_eq_step]
  simp only [unlessAny, after]
  cases e.runOn { s with assumptions := s.assumptions ++ guards.map Literal.toValue } <;> rfl

theorem withFresh_after_of_error {n : Nat} {e : Encoder I α} {s : State I} {x : Error}
    (h : (s.takeFresh n).enter s.nextVar n = .error x) : (withFresh n e).after s = s.takeFresh n := by
  rw [after_eq_step]
  simp only [withFresh, h, endState_error]

theorem withFresh_after {n : Nat} {e : Encoder I α} {s inner : State I}
    (h : (s.takeFresh n).enter s.nextVar n = .ok inner) :
    (withFresh n e).after s = endState ((s.takeFresh n).leave (e.after inner)) := by
  rw [after_eq_step]
  simp only [withFresh, h, after]
  cases e.runOn inner with
  | ok a t =>
    simp only [endState_ok]
    cases (s.takeFresh n).leave t <;> rfl
  | error x t =>
    simp only [endState_error]
    cases (s.takeFresh n).leave t <;> rfl

theorem attempt_after (e : Encoder I α) (s : State I) : e.attempt.after s = e.after s := by
  rw [after_eq_step]
  simp only [attempt, after]
  cases e.runOn s <;> rfl

end Encoder

/-! ### Programs -/

/-- Encoders by the way they are composed. -/
inductive Program : Type → Type 1 where
  | pure {α : Type} (a : α) : Program α
  /-- No encoder: choosing it fails. -/
  | fail {α : Type} (x : Error) : Program α
  | bind {α β : Type} (p : Program α) (f : α → Program β) : Program β
  | each {ι α : Type} (items : List ι) (f : ι → Program α) : Program Unit
  | snapshot : Program Snapshot
  | require (clause : List Literal) : Program Unit
  | context {α : Type} (name : String) (p : Program α) : Program α
  | unlessAny {α : Type} (guards : List Literal) (p : Program α) : Program α
  | withFresh {α : Type} (n : Nat) (p : Program α) : Program α
  /-- A step of a client that goes on after any failure of a part. -/
  | attempt {α : Type} (p : Program α) : Program (Except Error α)

namespace Program

variable {I α β ι : Type}

/-- The error of a program that is no encoder. -/
def fault? : Program α → Option Error
  | fail x => some x
  | _ => none

variable [Index I]

/-- The encoder that is composed. -/
def encoder : {α : Type} → Program α → Encoder I α
  | _, pure a => .pure a
  | _, fail x => ⟨fun s => .error x (s.warn x)⟩
  | _, bind p f => p.encoder.bind fun a => match (f a).fault? with
    | some x => .error x
    | none => .ok (f a).encoder
  | _, each items f => .eachChosen items fun i => match (f i).fault? with
    | some x => .error x
    | none => .ok (f i).encoder
  | _, snapshot => .snapshot
  | _, require clause => .require clause
  | _, context name p => .context name p.encoder
  | _, unlessAny guards p => .unlessAny guards p.encoder
  | _, withFresh n p => .withFresh n p.encoder
  | _, attempt p => p.encoder.attempt

/-- The choice of a program during a run. -/
def choice (p : Program α) : Except Error (Encoder I α) :=
  match p.fault? with
  | some x => .error x
  | none => .ok p.encoder

theorem encoder_bind (p : Program α) (f : α → Program β) :
    (p.bind f).encoder = (p.encoder (I := I)).bind fun a => (f a).choice := rfl

theorem encoder_each (items : List ι) (f : ι → Program α) :
    (each items f).encoder = Encoder.eachChosen (I := I) items fun i => (f i).choice := rfl

theorem runChosen_choice (p : Program α) : Encoder.runChosen (I := I) p.choice = p.encoder.runOn := by
  cases p <;> rfl

theorem bind_after_of_ok {p : Program α} {f : α → Program β} {s t : State I} {a : α}
    (h : p.encoder.runOn s = .ok a t) : (p.bind f).encoder.after s = (f a).encoder.after t := by
  rw [Encoder.after_eq_step, encoder_bind, Encoder.bind_step, h]
  dsimp only
  rw [runChosen_choice]
  rfl

theorem bind_after_of_error {p : Program α} {f : α → Program β} {s t : State I} {x : Error}
    (h : p.encoder.runOn s = .error x t) : (p.bind f).encoder.after s = t := by
  rw [Encoder.after_eq_step, encoder_bind, Encoder.bind_step, h]
  rfl

theorem each_nil_after (f : ι → Program α) (s : State I) : (each [] f).encoder.after s = s := by
  rw [Encoder.after_eq_step]
  rfl

theorem each_after_of_ok {i : ι} {is : List ι} {f : ι → Program α} {s t : State I} {a : α}
    (h : (f i).encoder.runOn s = .ok a t) : (each (i :: is) f).encoder.after s = (each is f).encoder.after t := by
  rw [Encoder.after_eq_step, Encoder.after_eq_step, encoder_each, Encoder.eachChosen_cons_step, runChosen_choice, h]
  rfl

theorem each_after_of_error {i : ι} {is : List ι} {f : ι → Program α} {s t : State I} {x : Error}
    (h : (f i).encoder.runOn s = .error x t) : (each (i :: is) f).encoder.after s = t := by
  rw [Encoder.after_eq_step, encoder_each, Encoder.eachChosen_cons_step, runChosen_choice, h]
  rfl

/-! ### Relations across programs -/

/-- A relation between states that holds across each step of the library and composes. -/
structure Closed (R : State I → State I → Prop) : Prop where
  refl (s : State I) : R s s
  trans {s t u : State I} : R s t → R t u → R s u
  warn (s : State I) (x : Error) : R s (s.warn x)
  addClause {s t : State I} {c : List Literal} : s.addClause c = .ok t → R s t
  context {s t : State I} {name : String} : R (s.openContext name) t → R s t.closeContext
  contextLeft (s : State I) (path : String) : R s (s.event (.contextLeft path s.nextVar s.clauses.length))
  unlessAny {s t : State I} {as : List Value} :
    R { s with assumptions := as } t → R s { t with assumptions := s.assumptions }
  takeFresh (s : State I) (n : Nat) : R s (s.takeFresh n)
  leave {s t inner : State I} {n : Nat} :
    (s.takeFresh n).enter s.nextVar n = .ok inner → R inner t → R s (endState ((s.takeFresh n).leave t))

variable {R : State I → State I → Prop}

private theorem Closed.each_after (h : Closed R) {f : ι → Program α} (hf : ∀ i s, R s ((f i).encoder.after s))
    (items : List ι) (s : State I) : R s ((each items f).encoder.after s) := by
  induction items generalizing s with
  | nil =>
    rw [each_nil_after]
    exact h.refl s
  | cons i is ih =>
    have hi := hf i s
    cases hr : (f i).encoder.runOn s with
    | ok a t =>
      rw [Encoder.after_of_ok hr] at hi
      rw [each_after_of_ok hr]
      exact h.trans hi (ih t)
    | error x t =>
      rw [Encoder.after_of_error hr] at hi
      rw [each_after_of_error hr]
      exact hi

/-- What holds across each step holds across every program, whether it succeeds or fails. -/
theorem Closed.rel_after (h : Closed R) (p : Program α) (s : State I) : R s (p.encoder.after s) := by
  induction p generalizing s with
  | pure a =>
    rw [Encoder.after_eq_step]
    exact h.refl s
  | fail x =>
    rw [Encoder.after_eq_step]
    exact h.warn s x
  | bind p f ihp ihf =>
    have hp := ihp s
    cases hr : p.encoder.runOn s with
    | ok a t =>
      rw [Encoder.after_of_ok hr] at hp
      rw [bind_after_of_ok hr]
      exact h.trans hp (ihf a t)
    | error x t =>
      rw [Encoder.after_of_error hr] at hp
      rw [bind_after_of_error hr]
      exact hp
  | each items f ih => exact h.each_after ih items s
  | snapshot =>
    rw [Encoder.after_eq_step]
    exact h.refl s
  | require clause =>
    rw [Encoder.after_eq_step]
    simp only [encoder, Encoder.require]
    cases hc : s.addClause clause with
    | ok t => exact h.addClause hc
    | error x => exact h.refl s
  | context name p ih =>
    have hc := h.context (ih (s.openContext name))
    rcases Encoder.context_after name p.encoder s with ht | ⟨path, ht⟩
    · rw [encoder, ht]
      exact hc
    · rw [encoder, ht]
      exact h.trans hc (h.contextLeft _ path)
  | unlessAny guards p ih =>
    rw [encoder, Encoder.unlessAny_after]
    exact h.unlessAny (ih _)
  | withFresh n p ih =>
    cases he : (s.takeFresh n).enter s.nextVar n with
    | error x =>
      rw [encoder, Encoder.withFresh_after_of_error he]
      exact h.takeFresh s n
    | ok inner =>
      rw [encoder, Encoder.withFresh_after he]
      exact h.leave he (ih inner)
  | attempt p ih =>
    rw [encoder, Encoder.attempt_after]
    exact ih s

theorem Closed.rel_of_ok (h : Closed R) {p : Program α} {s t : State I} {a : α} (hr : p.encoder.runOn s = .ok a t) :
    R s t := by
  have hp := h.rel_after p s
  rw [Encoder.after_of_ok hr] at hp
  exact hp

end Program

end Clausify
