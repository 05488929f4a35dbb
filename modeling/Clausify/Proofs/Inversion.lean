import Clausify.Encoder.Clause
import Clausify.Proofs.Frame
import Clausify.Proofs.Laws

/-!
# Encoders that succeed

A composed encoder succeeds only if its parts do: one lemma for each way to compose says which parts were carried out,
in which states, and what became of the last one.  For a round of a loop and for the scopes there is an equation that
covers failures as well (`runOn_eachChosen_cons`, `runOn_context`, `runOn_unlessAny`, `runOn_withFresh`).
-/

namespace Clausify.Encoder

variable {I α β ι : Type} {s t u : State I} {a : α} {b : β}

/-! ### Order -/

theorem runChosen_eq_ok {choice : Except Error (Encoder I α)} :
    runChosen choice s = .ok a t ↔ ∃ e, choice = .ok e ∧ e.runOn s = .ok a t := by
  cases choice with
  | error x => simp [runChosen]
  | ok e => simp [runChosen]

theorem runOn_bind_eq_ok {e : Encoder I α} {f : α → Except Error (Encoder I β)} :
    (e.bind f).runOn s = .ok b u ↔ ∃ a t g, e.runOn s = .ok a t ∧ f a = .ok g ∧ g.runOn t = .ok b u := by
  rw [runOn_bind, bindState_eq_ok]
  simp only [runChosen_eq_ok, exists_and_left]

theorem runOn_map_eq_ok {e : Encoder I α} {f : α → β} :
    (e.map f).runOn s = .ok b t ↔ ∃ a, e.runOn s = .ok a t ∧ f a = b := by
  rw [runOn_map, bindState_eq_ok]
  constructor
  · rintro ⟨a, u, hu, h⟩
    cases h
    exact ⟨a, hu, rfl⟩
  · rintro ⟨a, ha, rfl⟩
    exact ⟨a, t, ha, rfl⟩

theorem runOn_eachChosen_nil_eq_ok {f : ι → Except Error (Encoder I α)} :
    (eachChosen [] f).runOn s = .ok () t ↔ s = t := by
  rw [runOn_eachChosen]
  constructor
  · intro h
    cases h
    rfl
  · rintro rfl
    rfl

theorem runOn_eachChosen_cons (i : ι) (is : List ι) (f : ι → Except Error (Encoder I α)) (s : State I) :
    (eachChosen (i :: is) f).runOn s = match runChosen (f i) s with
      | .ok _ t => (eachChosen is f).runOn t
      | .error x t => .error x t := by
  have hstep (is : List ι) : (eachChosen is f).runOn = (eachChosen is f).step := runOn_eachChosen is f
  have hcons := eachChosen_cons_step i is f s
  rw [← hstep (i :: is), ← hstep is] at hcons
  exact hcons

theorem runOn_eachChosen_cons_eq_ok {i : ι} {is : List ι} {f : ι → Except Error (Encoder I α)} :
    (eachChosen (i :: is) f).runOn s = .ok () u ↔
      ∃ g a t, f i = .ok g ∧ g.runOn s = .ok a t ∧ (eachChosen is f).runOn t = .ok () u := by
  rw [runOn_eachChosen_cons]
  constructor
  · intro h
    split at h
    · next a t ht =>
      obtain ⟨g, hg, ha⟩ := runChosen_eq_ok.1 ht
      exact ⟨g, a, t, hg, ha, h⟩
    · cases h
  · rintro ⟨g, a, t, hg, ha, hu⟩
    rw [runChosen_eq_ok.2 ⟨g, hg, ha⟩]
    exact hu

/-! ### Clauses and scopes -/

theorem runOn_require_eq_ok [Index I] {c : List Literal} :
    (require c).runOn s = .ok () t ↔ s.addClause c = .ok t := by
  have hstep : (require c).step s = .ok () t ↔ s.addClause c = .ok t := by
    unfold require
    dsimp only
    cases s.addClause c with
    | error x => simp
    | ok u => simp
  rw [runOn_eq_ok_iff, hstep]
  exact and_iff_left_of_imp fun h => (State.frame_addClause h).nextVar_le

theorem runOn_context (name : String) (e : Encoder I α) (s : State I) : (context name e).runOn s =
    match e.runOn (s.openContext name) with
    | .ok a t => .ok a (t.closeContext.eventIf s.traceContexts
        (.contextLeft (s.openContext name).path t.nextVar t.clauses.length))
    | .error x t => .error x t.closeContext := by
  have hstep : Ascending (context name e).step := by
    intro s a t h
    unfold context at h
    dsimp only at h
    split at h
    · next b u hu =>
      cases h
      have hle := ascending_runOn e _ _ _ hu
      obtain ⟨i, hopen⟩ := s.openContext_eq name
      obtain ⟨j, hclose⟩ := u.closeContext.eventIf_eq s.traceContexts
        (.contextLeft (s.openContext name).path u.nextVar u.clauses.length)
      rw [hopen] at hle
      rw [hclose]
      exact hle
    · cases h
  rw [hstep.runOn_eq]
  rfl

theorem runOn_unlessAny (guards : List Literal) (e : Encoder I α) (s : State I) : (unlessAny guards e).runOn s =
    match e.runOn { s with assumptions := s.assumptions ++ guards.map Literal.toValue } with
    | .ok a t => .ok a { t with assumptions := s.assumptions }
    | .error x t => .error x { t with assumptions := s.assumptions } := by
  have hstep : Ascending (unlessAny guards e).step := by
    intro s a t h
    unfold unlessAny at h
    dsimp only at h
    split at h
    · next b u hu =>
      cases h
      have hle := ascending_runOn e _ _ _ hu
      exact hle
    · cases h
  rw [hstep.runOn_eq]
  rfl

theorem runOn_withFresh (n : Nat) (e : Encoder I α) (s : State I) : (withFresh n e).runOn s =
    match (s.takeFresh n).enter s.nextVar n with
    | .error x => .error x (s.takeFresh n)
    | .ok inner => match e.runOn inner with
      | .ok a t => match (s.takeFresh n).leave t with
        | .ok _ u => .ok a u
        | .error x u => .error x u
      | .error x t => match (s.takeFresh n).leave t with
        | .ok _ u => .error x u
        | .error y u => .error y u := by
  have hstep : Ascending (withFresh n e).step := by
    intro s a t h
    unfold withFresh at h
    dsimp only at h
    split at h
    · cases h
    · split at h
      · next b u hu =>
        by_cases hle : (s.takeFresh n).nextVar ≤ u.nextVar
        · rw [State.leave_of_le hle] at h
          cases h
          have hfresh : (s.takeFresh n).nextVar = s.nextVar + n := rfl
          show s.nextVar ≤ u.nextVar
          omega
        · unfold State.leave at h
          rw [if_pos (Int.not_le.1 hle)] at h
          cases h
      · split at h <;> cases h
  rw [hstep.runOn_eq]
  rfl

theorem runOn_context_eq_ok {name : String} {e : Encoder I α} (h : (context name e).runOn s = .ok a u) :
    ∃ t, e.runOn (s.openContext name) = .ok a t ∧ u = t.closeContext.eventIf s.traceContexts
      (.contextLeft (s.openContext name).path t.nextVar t.clauses.length) := by
  rw [runOn_context] at h
  split at h
  · next b t ht =>
    cases h
    exact ⟨t, ht, rfl⟩
  · cases h

theorem runOn_unlessAny_eq_ok {guards : List Literal} {e : Encoder I α} (h : (unlessAny guards e).runOn s = .ok a u) :
    ∃ t, e.runOn { s with assumptions := s.assumptions ++ guards.map Literal.toValue } = .ok a t ∧
      u = { t with assumptions := s.assumptions } := by
  rw [runOn_unlessAny] at h
  split at h
  · next b t ht =>
    cases h
    exact ⟨t, ht, rfl⟩
  · cases h

/-- The state behind a scope is that outside, with what is common to both and the counter of the body. -/
theorem runOn_withFresh_eq_ok {n : Nat} {e : Encoder I α} (h : (withFresh n e).runOn s = .ok a u) :
    ∃ inner t, (s.takeFresh n).enter s.nextVar n = .ok inner ∧ e.runOn inner = .ok a t ∧
      u = { s.takeFresh n with
        clauses := t.clauses, contexts := t.contexts, journal := t.journal
        nextVar := t.nextVar } := by
  rw [runOn_withFresh] at h
  split at h
  · cases h
  · next inner hi =>
    split at h
    · next b t ht =>
      by_cases hle : (s.takeFresh n).nextVar ≤ t.nextVar
      · rw [State.leave_of_le hle] at h
        cases h
        exact ⟨inner, t, hi, ht, rfl⟩
      · unfold State.leave at h
        rw [if_pos (Int.not_le.1 hle)] at h
        cases h
    · split at h
      · cases h
      · cases h

end Clausify.Encoder
