import Clausify.Proofs.Tracing

/-!
# Abandoned contexts

A context whose body fails is closed like any other, but its end is not recorded.  Where a client catches the failure
and the run goes on, the event that the context was entered stays without one that it was left.  So the events of a
run nest as the contexts do except for those of abandoned contexts, of which nothing but the entry and what happened
inside is told (`Event.Broken`), and they nest without exception if no context was abandoned (`Program.run_breaks`).
-/

namespace Clausify

/-! ### Events that break off -/

/-- The events under open contexts, as in `Event.Nested`, but for a number of contexts that were entered and then
abandoned. -/
inductive Event.Broken : List String → Nat → List Event → Prop where
  | nil (names : List String) : Broken names 0 []
  | temporaries {names : List String} {k : Nat} {es : List Event} (base : Int) (n : Nat) :
      Broken names k es → Broken names k (.temporariesAllocated base n ("/".intercalate names) :: es)
  | context {names : List String} {name : String} {k k' : Nat} {inner es : List Event} (next next' : Int)
      (size size' : Nat) : Broken (names ++ [name]) k inner → Broken names k' es →
        Broken names (k + k') (.contextEntered ("/".intercalate (names ++ [name])) next size ::
          (inner ++ .contextLeft ("/".intercalate (names ++ [name])) next' size' :: es))
  | abandoned {names : List String} {name : String} {k k' : Nat} {inner es : List Event} (next : Int) (size : Nat) :
      Broken (names ++ [name]) k inner → Broken names k' es →
        Broken names (k + 1 + k') (.contextEntered ("/".intercalate (names ++ [name])) next size :: (inner ++ es))

namespace Event

variable {names : List String} {k k' : Nat} {es fs : List Event}

private theorem Broken.append (h : Broken names k es) (h' : Broken names k' fs) :
    Broken names (k + k') (es ++ fs) := by
  induction h with
  | nil =>
    rw [Nat.zero_add]
    exact h'
  | temporaries base n _ ih => exact .temporaries base n (ih h')
  | context next next' size size' hinner _ _ ih =>
    rw [List.cons_append, List.append_assoc, List.cons_append, Nat.add_assoc]
    exact .context next next' size size' hinner (ih h')
  | abandoned next size hinner _ _ ih =>
    rw [List.cons_append, List.append_assoc, Nat.add_assoc]
    exact .abandoned next size hinner (ih h')

/-- One more for a context that is entered, one less for a context that is left. -/
def delta : Event → Int
  | contextEntered _ _ _ => 1
  | contextLeft _ _ _ => -1
  | _ => 0

/-- The number of contexts that were entered and not left. -/
def unclosed (es : List Event) : Int := (es.map delta).sum

@[simp] theorem unclosed_nil : unclosed [] = 0 := rfl

@[simp] theorem unclosed_cons (e : Event) (es : List Event) : unclosed (e :: es) = e.delta + unclosed es := by
  simp [unclosed]

@[simp] theorem unclosed_append (es fs : List Event) : unclosed (es ++ fs) = unclosed es + unclosed fs := by
  simp [unclosed]

private theorem Nested.unclosed_eq (h : Nested names es) : unclosed es = 0 := by
  induction h with
  | nil => rfl
  | temporaries base n _ ih => simp [delta, ih]
  | context next next' size size' _ _ ihinner ih => simp [delta, ihinner, ih]

private theorem Broken.unclosed_eq (h : Broken names k es) : unclosed es = k := by
  induction h with
  | nil => rfl
  | temporaries base n _ ih => simp [delta, ih]
  | context next next' size size' _ _ ihinner ih =>
    simp [delta, ihinner, ih]
    omega
  | abandoned next size _ _ ihinner ih =>
    simp [delta, ihinner, ih]
    omega

private theorem Broken.nested (h : Broken names k es) (hk : k = 0) : Nested names es := by
  induction h with
  | nil names => exact .nil names
  | temporaries base n _ ih => exact .temporaries base n (ih hk)
  | context next next' size size' _ _ ihinner ih =>
    exact .context next next' size size' (ihinner (by omega)) (ih (by omega))
  | abandoned next size _ _ _ _ => omega

/-- Events nest exactly if no context was abandoned. -/
private theorem Broken.nested_iff (h : Broken names k es) : Nested names es ↔ k = 0 := by
  constructor
  · intro hn
    have := hn.unclosed_eq
    have := h.unclosed_eq
    omega
  · exact h.nested

end Event

variable {I α β ι : Type}

/-! ### Steps -/

namespace State

/-- The events between two states are those under the open contexts of the first, of which a number were abandoned. -/
def Breaks (s t : State I) (k : Nat) : Prop :=
  ∃ es, t.journal.events = s.journal.events ++ es ∧ Event.Broken s.contexts k es

variable {s t u : State I} {k k' : Nat}

/-- A step without events. -/
private theorem Breaks.of_eq (h : t.journal.events = s.journal.events) : s.Breaks t 0 :=
  ⟨[], by rw [h, List.append_nil], .nil _⟩

private theorem Breaks.trans (h : s.Breaks t k) (hcontexts : t.contexts = s.contexts) (h' : t.Breaks u k') :
    s.Breaks u (k + k') := by
  obtain ⟨es, hes, hbroken⟩ := h
  obtain ⟨fs, hfs, hbroken'⟩ := h'
  rw [hcontexts] at hbroken'
  refine ⟨es ++ fs, ?_, hbroken.append hbroken'⟩
  rw [hfs, hes, List.append_assoc]

private theorem breaks_takeFresh (s : State I) (n : Nat) : s.Breaks (s.takeFresh n) 0 :=
  ⟨[.temporariesAllocated s.nextVar n s.path], rfl, .temporaries _ _ (.nil _)⟩

/-- A context whose body succeeds is recorded with its end. -/
private theorem Breaks.context {name : String} (h : (s.openContext name).Breaks t k) (hs : s.traceContexts = true) :
    s.Breaks (t.closeContext.eventIf s.traceContexts
      (.contextLeft (s.openContext name).path t.nextVar t.clauses.length)) k := by
  obtain ⟨es, hes, hbroken⟩ := h
  rw [contexts_openContext] at hbroken
  exact ⟨_, events_context hs hes, .context _ _ _ _ hbroken (.nil _)⟩

/-- A context whose body fails is recorded without its end. -/
private theorem Breaks.abandon {name : String} (h : (s.openContext name).Breaks t k) (hs : s.traceContexts = true) :
    s.Breaks t.closeContext (k + 1) := by
  obtain ⟨es, hes, hbroken⟩ := h
  rw [contexts_openContext] at hbroken
  rw [events_openContext hs] at hes
  refine ⟨_, ?_, .abandoned s.nextVar s.clauses.length hbroken (.nil _)⟩
  show t.journal.events = _
  rw [hes]
  simp

/-- The events of a scope are recorded whether the counter was set back in it or not. -/
private theorem Breaks.leave {n : Nat} {inner : State I} (he : (s.takeFresh n).enter s.nextVar n = .ok inner)
    (h : inner.Breaks t k) : s.Breaks (endState ((s.takeFresh n).leave t)) k := by
  obtain ⟨gs, -, rfl⟩ := enter_eq_ok.1 he
  have hbody : (s.takeFresh n).Breaks t k := h
  have hall := (s.breaks_takeFresh n).trans rfl hbody
  rw [Nat.zero_add] at hall
  unfold State.leave
  dsimp only
  split <;> exact hall

end State

/-! ### Programs -/

namespace Program

/-- The sum over the rounds of a loop, each in the state in which it is carried out, up to the first that fails. -/
def sumRounds (count : ι → State I → Nat) (round : ι → EStateM Error (State I) α) : List ι → State I → Nat
  | [], _ => 0
  | i :: is, s => count i s + match round i s with
    | .ok _ t => sumRounds count round is t
    | .error _ _ => 0

variable [Index I]

/-- The number of contexts whose bodies fail where the program is carried out in the state. -/
def abandoned : {α : Type} → Program α → State I → Nat
  | _, pure _, _ => 0
  | _, fail _, _ => 0
  | _, bind p f, s => p.abandoned s + match p.encoder.runOn s with
    | .ok a t => (f a).abandoned t
    | .error _ _ => 0
  | _, each items f, s => sumRounds (fun i => (f i).abandoned) (fun i => (f i).encoder.runOn) items s
  | _, snapshot, _ => 0
  | _, require _, _ => 0
  | _, context name p, s => p.abandoned (s.openContext name) + match p.encoder.runOn (s.openContext name) with
    | .ok _ _ => 0
    | .error _ _ => 1
  | _, unlessAny guards p, s => p.abandoned { s with assumptions := s.assumptions ++ guards.map Literal.toValue }
  | _, withFresh n p, s => match (s.takeFresh n).enter s.nextVar n with
    | .ok inner => p.abandoned inner
    | .error _ => 0
  | _, attempt p, s => p.abandoned s

private theorem breaks_bind {p : Program α} {f : α → Program β} {s : State I}
    (hp : s.Breaks (p.encoder.after s) (p.abandoned s))
    (hf : ∀ a (t : State I), t.traceContexts = true → t.Breaks ((f a).encoder.after t) ((f a).abandoned t))
    (hs : s.traceContexts = true) : s.Breaks ((bind p f).encoder.after s) ((bind p f).abandoned s) := by
  unfold abandoned
  cases hr : p.encoder.runOn s with
  | ok a t =>
    have hframe := closed_frame.rel_of_ok hr
    rw [Encoder.after_of_ok hr] at hp
    rw [bind_after_of_ok hr]
    exact hp.trans hframe.contexts_eq (hf a t (hframe.traceContexts_eq.trans hs))
  | error x t =>
    rw [Encoder.after_of_error hr] at hp
    rw [bind_after_of_error hr]
    exact hp

private theorem breaks_each {f : ι → Program α} {items : List ι}
    (hf : ∀ i (s : State I), s.traceContexts = true → s.Breaks ((f i).encoder.after s) ((f i).abandoned s))
    (s : State I) (hs : s.traceContexts = true) :
    s.Breaks ((each items f).encoder.after s) ((each items f).abandoned s) := by
  induction items generalizing s with
  | nil =>
    rw [each_nil_after]
    exact .of_eq rfl
  | cons i is ih =>
    have hi := hf i s hs
    unfold abandoned sumRounds
    cases hr : (f i).encoder.runOn s with
    | ok a t =>
      have hframe := closed_frame.rel_of_ok hr
      rw [Encoder.after_of_ok hr] at hi
      rw [each_after_of_ok hr]
      exact hi.trans hframe.contexts_eq (ih t (hframe.traceContexts_eq.trans hs))
    | error x t =>
      rw [Encoder.after_of_error hr] at hi
      rw [each_after_of_error hr]
      exact hi

private theorem breaks_require (clause : List Literal) (s : State I) :
    s.Breaks ((require clause).encoder.after s) 0 := by
  rw [Encoder.after_eq_step]
  simp only [encoder, Encoder.require]
  cases hc : s.addClause clause with
  | ok t =>
    obtain ⟨d, -, -, rfl⟩ := State.addClause_eq_ok.1 hc
    exact .of_eq rfl
  | error x => exact .of_eq rfl

private theorem breaks_context {name : String} {p : Program α} {s : State I}
    (hp : (s.openContext name).Breaks (p.encoder.after (s.openContext name)) (p.abandoned (s.openContext name)))
    (hs : s.traceContexts = true) :
    s.Breaks ((context name p).encoder.after s) ((context name p).abandoned s) := by
  have hafter : (context name p).encoder.after s = endState ((Encoder.context name p.encoder).runOn s) := rfl
  rw [hafter, Encoder.runOn_context]
  unfold abandoned
  cases hr : p.encoder.runOn (s.openContext name) with
  | ok a t =>
    rw [Encoder.after_of_ok hr] at hp
    exact hp.context hs
  | error x t =>
    rw [Encoder.after_of_error hr] at hp
    exact hp.abandon hs

private theorem breaks_withFresh {n : Nat} {p : Program α} {s : State I}
    (hp : ∀ t : State I, t.traceContexts = true → t.Breaks (p.encoder.after t) (p.abandoned t))
    (hs : s.traceContexts = true) : s.Breaks ((withFresh n p).encoder.after s) ((withFresh n p).abandoned s) := by
  unfold abandoned
  cases he : (s.takeFresh n).enter s.nextVar n with
  | error x =>
    rw [encoder, Encoder.withFresh_after_of_error he]
    exact s.breaks_takeFresh n
  | ok inner =>
    obtain ⟨gs, -, hinner⟩ := State.enter_eq_ok.1 he
    rw [encoder, Encoder.withFresh_after he]
    exact (hp inner (by rw [hinner]; exact hs)).leave he

/-- What a program records, whether it succeeds or fails. -/
private theorem breaks_after (p : Program α) (s : State I) (hs : s.traceContexts = true) :
    s.Breaks (p.encoder.after s) (p.abandoned s) := by
  induction p generalizing s with
  | pure a =>
    rw [Encoder.after_eq_step]
    exact .of_eq rfl
  | fail x =>
    rw [Encoder.after_eq_step]
    exact .of_eq (Journal.events_warn s.journal x)
  | bind p f ihp ihf => exact breaks_bind (ihp s hs) ihf hs
  | each items f ih => exact breaks_each ih s hs
  | snapshot =>
    rw [Encoder.after_eq_step]
    exact .of_eq rfl
  | require clause => exact breaks_require clause s
  | context name p ih => exact breaks_context (ih _ (by rw [State.traceContexts_openContext, hs])) hs
  | unlessAny guards p ih =>
    rw [encoder, Encoder.unlessAny_after]
    exact ih _ hs
  | withFresh n p ih => exact breaks_withFresh ih hs
  | attempt p ih =>
    rw [encoder, Encoder.attempt_after]
    exact ih s hs

end Program

/-! ### Runs -/

variable {vars : List Value} {embedding : Option (Table Value)} {config : Config} {j j' : Journal} {r : Result Int α}
  {m : VarMap Int}

/-- In a run that returns a result, the new events before the last one are those of nested contexts but for the
contexts that were abandoned: those whose bodies failed.  Exactly so many more contexts are entered than left, so the
events nest if no context was abandoned, and only then. -/
theorem Program.run_breaks {p : Program α} (htrace : config.traceContexts = true)
    (hm : VarMap.ofUniverse vars embedding = .ok m)
    (h : run vars (.encoder p.encoder) embedding config j = .ok r j') :
    let k := p.abandoned (.initial m config.checkInvariants true j)
    ∃ es, j'.events = j.events ++ es ++
        [.encodingFinished r.clauses.length vars.length (r.numVars - vars.length)] ∧
      Event.Broken [] k es ∧ Event.unclosed es = k ∧ (Event.Nested [] es ↔ k = 0) := by
  intro k
  obtain ⟨m', t, hm', ht, -, -, hevents⟩ := Encoder.run_events h
  cases hm.symm.trans hm'
  rw [htrace] at ht
  have hbreaks := p.breaks_after (.initial m config.checkInvariants true j) rfl
  rw [Encoder.after_of_ok ht] at hbreaks
  obtain ⟨es, hes, hbroken⟩ := hbreaks
  refine ⟨es, ?_, hbroken, hbroken.unclosed_eq, hbroken.nested_iff⟩
  rw [hevents, hes]
  rfl

/-- A failure that is caught inside of a context does not break it. -/
theorem Program.run_breaks_of_caught_step :
    let p : Program (Except Error Unit) := .context "c" (.attempt (.require [.named (.str "b") true]))
    let m : VarMap Int := .ofTable (.ofList [(.str "a", 1)])
    VarMap.ofUniverse [.str "a"] none = .ok m ∧ p.abandoned (.initial m true true .empty) = 0 ∧
      ∃ (r : Result Int (Except Error Unit)) (j : Journal),
        run [.str "a"] (.encoder p.encoder) none {} .empty = .ok r j ∧
        j.events = [.contextEntered "c" 2 0, .contextLeft "c" 2 0, .encodingFinished 0 1 0] ∧
        Event.Nested [] j.events.dropLast := by
  intro p m
  obtain ⟨r, j, hr, hevents⟩ : ∃ (r : Result Int _) (j : Journal),
      run [.str "a"] (.encoder p.encoder) none {} .empty = .ok r j ∧
        j.events = [.contextEntered "c" 2 0, .contextLeft "c" 2 0, .encodingFinished 0 1 0] := ⟨_, _, rfl, rfl⟩
  have hm : VarMap.ofUniverse [.str "a"] none = .ok m := rfl
  have hk : p.abandoned (.initial m true true .empty) = 0 := rfl
  obtain ⟨es, hes, -, -, hnested⟩ := run_breaks rfl hm hr
  refine ⟨hm, hk, r, j, hr, hevents, ?_⟩
  rw [hes, List.dropLast_concat]
  exact hnested.2 hk

/-- A context whose failure is caught is entered and not left. -/
theorem Program.run_leaves_context_open :
    let p : Program (Except Error Unit) := .attempt (.context "c" (.require [.named (.str "b") true]))
    ∃ (r : Result Int (Except Error Unit)) (j : Journal),
      run [.str "a"] (.encoder p.encoder) none {} .empty = .ok r j ∧
      j.events = [.contextEntered "c" 2 0, .encodingFinished 0 1 0] ∧ ¬Event.Nested [] j.events.dropLast := by
  intro p
  refine ⟨_, _, rfl, rfl, fun h => ?_⟩
  have hunclosed : Event.unclosed [.contextEntered "c" 2 0] = 0 := h.unclosed_eq
  exact absurd hunclosed (by decide)

end Clausify
