import Clausify.Proofs.Composed
import Clausify.Proofs.Inversion

/-!
# Events of nested contexts

While no failure of a part is caught (`Encoder.Uncaught`), each context that was entered is left, so the events of a
run that succeeds nest as the contexts do: those between the two events of a context belong to it, and a temporary
scope is recorded with the path of the contexts that are open (`Event.Nested`, `Encoder.Uncaught.nests`).  No
operation of the library catches a failure (`Encoder.OfLibrary.uncaught`).
-/

namespace Clausify

/-! ### Nested events -/

/-- The events under open contexts, whose names are given from the outermost on: each context that is entered is left
under the same path, and the events in between are those under one more context. -/
inductive Event.Nested : List String → List Event → Prop where
  | nil (names : List String) : Nested names []
  | temporaries {names : List String} {es : List Event} (base : Int) (n : Nat) :
      Nested names es → Nested names (.temporariesAllocated base n ("/".intercalate names) :: es)
  | context {names : List String} {name : String} {inner es : List Event} (next next' : Int) (size size' : Nat) :
      Nested (names ++ [name]) inner → Nested names es →
        Nested names (.contextEntered ("/".intercalate (names ++ [name])) next size ::
          (inner ++ .contextLeft ("/".intercalate (names ++ [name])) next' size' :: es))

private theorem Event.Nested.append {names : List String} {es fs : List Event} (h : Nested names es)
    (h' : Nested names fs) : Nested names (es ++ fs) := by
  induction h with
  | nil => exact h'
  | temporaries base n _ ih => exact .temporaries base n (ih h')
  | context next next' size size' hinner _ _ ih =>
    rw [List.cons_append, List.append_assoc, List.cons_append]
    exact .context next next' size size' hinner (ih h')

variable {I α ι : Type}

namespace State

/-- Between the states at one level, the events are nested under the open contexts. -/
structure Nests (s t : State I) : Prop where
  contexts_eq : t.contexts = s.contexts
  traceContexts_eq : t.traceContexts = s.traceContexts
  events_eq : ∃ es, t.journal.events = s.journal.events ++ es ∧ Event.Nested s.contexts es

variable {s t u : State I}

/-- A step without events. -/
private theorem Nests.of_eq (hc : t.contexts = s.contexts) (ht : t.traceContexts = s.traceContexts)
    (hj : t.journal.events = s.journal.events) : s.Nests t :=
  ⟨hc, ht, [], by rw [hj, List.append_nil], .nil _⟩

private theorem Nests.trans (h : s.Nests t) (h' : t.Nests u) : s.Nests u := by
  obtain ⟨es, hes, hn⟩ := h.events_eq
  obtain ⟨fs, hfs, hn'⟩ := h'.events_eq
  rw [h.contexts_eq] at hn'
  exact ⟨h'.contexts_eq.trans h.contexts_eq, h'.traceContexts_eq.trans h.traceContexts_eq, es ++ fs,
    by rw [hfs, hes, List.append_assoc], hn.append hn'⟩

private theorem nests_takeFresh (s : State I) (n : Nat) : s.Nests (s.takeFresh n) :=
  ⟨rfl, rfl, [.temporariesAllocated s.nextVar n s.path], rfl, .temporaries _ _ (.nil _)⟩

theorem contexts_openContext (s : State I) (name : String) :
    (s.openContext name).contexts = s.contexts ++ [name] := by
  obtain ⟨j, hj⟩ := s.openContext_eq name
  rw [hj]

theorem traceContexts_openContext (s : State I) (name : String) :
    (s.openContext name).traceContexts = s.traceContexts := by
  obtain ⟨j, hj⟩ := s.openContext_eq name
  rw [hj]

theorem events_openContext (hs : s.traceContexts = true) (name : String) : (s.openContext name).journal.events =
    s.journal.events ++ [.contextEntered ("/".intercalate (s.contexts ++ [name])) s.nextVar s.clauses.length] := by
  unfold openContext eventIf
  rw [if_pos hs]
  rfl

/-- The events of a context whose body succeeds are those of the body, between the two of its own. -/
theorem events_context (hs : s.traceContexts = true) {name : String} {es : List Event}
    (hes : t.journal.events = (s.openContext name).journal.events ++ es) :
    let path := "/".intercalate (s.contexts ++ [name])
    (t.closeContext.eventIf s.traceContexts
      (.contextLeft (s.openContext name).path t.nextVar t.clauses.length)).journal.events =
        s.journal.events ++ (.contextEntered path s.nextVar s.clauses.length ::
          (es ++ .contextLeft path t.nextVar t.clauses.length :: [])) := by
  intro path
  have hpath : (s.openContext name).path = path := congrArg _ (contexts_openContext s name)
  rw [hs, hpath]
  show t.journal.events ++ [_] = _
  rw [hes, events_openContext hs]
  simp [path]

private theorem Nests.context {name : String} (h : (s.openContext name).Nests t) (hs : s.traceContexts = true) :
    s.Nests (t.closeContext.eventIf s.traceContexts
      (.contextLeft (s.openContext name).path t.nextVar t.clauses.length)) := by
  obtain ⟨hcontexts, htrace, es, hes, hn⟩ := h
  rw [contexts_openContext] at hcontexts hn
  rw [traceContexts_openContext] at htrace
  refine ⟨?_, ?_, _, events_context hs hes, .context _ _ _ _ hn (.nil _)⟩
  · rw [hs]
    show t.contexts.dropLast = s.contexts
    rw [hcontexts]
    exact List.dropLast_concat
  · rw [hs]
    exact htrace.trans hs

end State

namespace Encoder

/-! ### Failures that are not caught -/

/-- The encoder is composed of operations of the library, and where it is carried out in the state, no failure of a
part is caught. -/
inductive Uncaught [Index I] : {α : Type} → Encoder I α → State I → Prop where
  | pure {α : Type} (a : α) (s : State I) : Uncaught (.pure a) s
  | snapshot (s : State I) : Uncaught .snapshot s
  | require (clause : List Literal) (s : State I) : Uncaught (.require clause) s
  | bind {α β : Type} {e : Encoder I α} {f : α → Except Error (Encoder I β)} {s : State I} :
      Uncaught e s → (∀ a t g, e.runOn s = .ok a t → f a = .ok g → Uncaught g t) → Uncaught (e.bind f) s
  | map {α β : Type} {e : Encoder I α} {s : State I} (f : α → β) : Uncaught e s → Uncaught (e.map f) s
  | eachNil {ι α : Type} (f : ι → Except Error (Encoder I α)) (s : State I) : Uncaught (.eachChosen [] f) s
  | eachCons {ι α : Type} {i : ι} {is : List ι} {f : ι → Except Error (Encoder I α)} {s : State I} :
      (∀ g, f i = .ok g → Uncaught g s) →
        (∀ a t, runChosen (f i) s = .ok a t → Uncaught (.eachChosen is f) t) → Uncaught (.eachChosen (i :: is) f) s
  | context {α : Type} {name : String} {e : Encoder I α} {s : State I} :
      Uncaught e (s.openContext name) → Uncaught (.context name e) s
  | unlessAny {α : Type} {guards : List Literal} {e : Encoder I α} {s : State I} :
      Uncaught e { s with assumptions := s.assumptions ++ guards.map Literal.toValue } →
        Uncaught (.unlessAny guards e) s
  | withFresh {α : Type} {n : Nat} {e : Encoder I α} {s : State I} :
      (∀ inner, (s.takeFresh n).enter s.nextVar n = .ok inner → Uncaught e inner) → Uncaught (.withFresh n e) s
  /-- What would be caught does not fail. -/
  | attempt {α : Type} {e : Encoder I α} {s t : State I} {a : α} :
      Uncaught e s → e.runOn s = .ok a t → Uncaught e.attempt s

variable [Index I]

/-- The events of an encoder that succeeds are nested. -/
theorem Uncaught.nests {e : Encoder I α} {s t : State I} {a : α} (h : e.Uncaught s) (hs : s.traceContexts = true)
    (hr : e.runOn s = .ok a t) : s.Nests t := by
  induction h generalizing t with
  | pure b s =>
    cases (runOn_eq_ok_iff.1 hr).1
    exact .of_eq rfl rfl rfl
  | snapshot s =>
    cases (runOn_eq_ok_iff.1 hr).1
    exact .of_eq rfl rfl rfl
  | require clause s =>
    obtain ⟨d, -, -, rfl⟩ := State.addClause_eq_ok.1 (runOn_require_eq_ok.1 hr)
    exact .of_eq rfl rfl rfl
  | bind _ _ ihe ihf =>
    obtain ⟨b, u, g, hu, hg, hr⟩ := runOn_bind_eq_ok.1 hr
    have hfirst := ihe hs hu
    exact hfirst.trans (ihf b u g hu hg (hfirst.traceContexts_eq.trans hs) hr)
  | map f _ ih =>
    obtain ⟨b, hr, -⟩ := runOn_map_eq_ok.1 hr
    exact ih hs hr
  | eachNil f s =>
    cases runOn_eachChosen_nil_eq_ok.1 hr
    exact .of_eq rfl rfl rfl
  | eachCons _ _ ihi ihs =>
    obtain ⟨g, b, u, hg, hu, hr⟩ := runOn_eachChosen_cons_eq_ok.1 hr
    have hfirst := ihi g hg hs hu
    exact hfirst.trans (ihs b u (runChosen_eq_ok.2 ⟨g, hg, hu⟩) (hfirst.traceContexts_eq.trans hs) hr)
  | @context _ name e s _ ih =>
    obtain ⟨u, hu, rfl⟩ := runOn_context_eq_ok hr
    refine (ih ?_ hu).context hs
    rw [State.traceContexts_openContext]
    exact hs
  | unlessAny _ ih =>
    obtain ⟨u, hu, rfl⟩ := runOn_unlessAny_eq_ok hr
    exact { ih hs hu with }
  | @withFresh _ n e s _ ih =>
    obtain ⟨inner, u, hi, hu, rfl⟩ := runOn_withFresh_eq_ok hr
    obtain ⟨gs, -, rfl⟩ := State.enter_eq_ok.1 hi
    have hbody := ih _ hi hs hu
    exact (s.nests_takeFresh n).trans { hbody with traceContexts_eq := rfl }
  | attempt _ hok ih =>
    replace hr := (runOn_eq_ok_iff.1 hr).1
    unfold Encoder.attempt at hr
    dsimp only at hr
    rw [hok] at hr
    cases hr
    exact ih hs hok

/-! ### Encoders of the library -/

private theorem uncaught_eachChosen {items : List ι} {f : ι → Except Error (Encoder I α)}
    (h : ∀ i ∈ items, ∀ g, f i = .ok g → ∀ s, g.Uncaught s) (s : State I) : (eachChosen items f).Uncaught s := by
  induction items generalizing s with
  | nil => exact .eachNil _ s
  | cons i is ih =>
    obtain ⟨hi, his⟩ := List.forall_mem_cons.1 h
    exact .eachCons (fun g hg => hi g hg s) fun a t _ => ih his t

private theorem uncaught_each {items : List ι} {f : ι → Encoder I α} (h : ∀ i ∈ items, ∀ s, (f i).Uncaught s)
    (s : State I) : (each items f).Uncaught s :=
  uncaught_eachChosen (fun i hi g hg => by cases hg; exact h i hi) s

private theorem uncaught_seq {es : List (Encoder I α)} (h : ∀ e ∈ es, ∀ s, e.Uncaught s) (s : State I) :
    (seq es).Uncaught s :=
  uncaught_each (f := id) h s

private theorem uncaught_requireAll (clauses : List (List Literal)) (s : State I) : (requireAll clauses).Uncaught s :=
  uncaught_each (fun c _ => .require c) s

private theorem uncaught_gate (g : Gate Literal) (s : State I) : g.encode.Uncaught s := uncaught_requireAll _ s

private theorem uncaught_atMost (lits : List Literal) (k : Int) (s : State I) :
    (Cardinality.encodeAtMost lits k).Uncaught s := by
  unfold Cardinality.encodeAtMost
  split
  · exact .require [] s
  split
  · exact .pure () s
  split
  · exact uncaught_requireAll _ s
  · exact .withFresh fun inner _ => uncaught_requireAll _ inner

private theorem uncaught_atLeast (lits : List Literal) (k : Int) (s : State I) :
    (Cardinality.encodeAtLeast lits k).Uncaught s := by
  unfold Cardinality.encodeAtLeast
  split
  · exact .pure () s
  split
  · exact .require [] s
  · exact uncaught_atMost _ _ s

private theorem uncaught_cardinality (c : Cardinality Literal Int) (s : State I) : c.encode.Uncaught s := by
  cases c with
  | atLeastOne lits => exact .require lits s
  | atMostOne lits => exact uncaught_requireAll _ s
  | exactlyOne lits =>
    refine uncaught_seq (List.forall_mem_cons.2 ⟨.require lits, List.forall_mem_cons.2 ⟨uncaught_requireAll _, ?_⟩⟩) s
    exact fun e he => absurd he List.not_mem_nil
  | atMost lits k => exact uncaught_atMost lits k s
  | atLeast lits k => exact uncaught_atLeast lits k s
  | exactly lits k =>
    refine uncaught_seq (List.forall_mem_cons.2 ⟨uncaught_atMost lits k,
      List.forall_mem_cons.2 ⟨uncaught_atLeast lits k, ?_⟩⟩) s
    exact fun e he => absurd he List.not_mem_nil

private theorem uncaught_expr (e : Expr) (s : State I) : e.encode.Uncaught s := by
  refine uncaught_each (fun c _ s => ?_) s
  unfold Expr.encodeConjunct
  split
  · exact .require _ s
  · refine .withFresh fun inner _ => uncaught_seq (fun g hg => ?_) inner
    rcases List.mem_append.1 hg with hg | hg
    · obtain ⟨g, -, rfl⟩ := List.mem_map.1 hg
      exact uncaught_gate g
    · rw [List.mem_singleton.1 hg]
      exact .require _

private theorem uncaught_constraint (c : Constraint) (s : State I) : c.encode.Uncaught s := by
  cases c with
  | expr e => exact uncaught_expr e s
  | atLeast k names => exact uncaught_cardinality (.atLeast _ _) s
  | atMost k names => exact uncaught_cardinality (.atMost _ _) s
  | exactly k names => exact uncaught_cardinality (.exactly _ _) s

theorem OfLibrary.uncaught {e : Encoder I α} (h : e.OfLibrary) (s : State I) : e.Uncaught s := by
  induction h generalizing s with
  | pure a => exact .pure a s
  | bind _ _ ihe ihf => exact .bind (ihe s) fun a t g _ hg => ihf a g hg t
  | map f _ ih => exact .map f (ih s)
  | eachChosen _ ih => exact uncaught_eachChosen ih s
  | onlyIf cond _ ih =>
    unfold Encoder.onlyIf
    split
    · exact .map _ (ih s)
    · exact .pure () s
  | snapshot => exact .snapshot s
  | require clause => exact .require clause s
  | requireAll clauses => exact uncaught_requireAll clauses s
  | exclude a => exact .require _ s
  | prescribe a => exact uncaught_each (fun _ _ => .require _) s
  | context name _ ih => exact .context (ih _)
  | unlessAny guards _ ih => exact .unlessAny (ih _)
  | ifAll lits _ ih => exact .unlessAny (ih _)
  | withFresh n _ ih => exact .withFresh fun inner _ => ih inner
  | gate g => exact uncaught_gate g s
  | cardinality c => exact uncaught_cardinality c s
  | constraint c => exact uncaught_constraint c s

end Encoder

end Clausify
