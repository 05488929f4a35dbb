import Clausify.Proofs.Composed
import Clausify.Proofs.Lockstep
import Clausify.Proofs.Runs

/-!
# Contexts that are not recorded

Whether contexts are recorded as events matters to nothing else.  A state that does not record them, with a journal
without their events (`State.quiet`), stays so under each step (`State.bisimilar_quiet`).  So a run that does not
record contexts fails with the same error or returns the same result, and its events are those of the run that does,
without those of contexts (`Encoder.Composed.run_quiet`).
-/

namespace Clausify

variable {I α : Type}

/-- The event is that of a context. -/
def Event.isContext : Event → Bool
  | .contextEntered _ _ _ | .contextLeft _ _ _ => true
  | _ => false

/-- The journal without the events of contexts. -/
def Journal.quiet (j : Journal) : Journal := { j with events := j.events.filter fun e => !e.isContext }

namespace Journal

private theorem quiet_event (j : Journal) {e : Event} (h : e.isContext = false) :
    (j.event e).quiet = j.quiet.event e := by
  unfold quiet Journal.event
  rw [List.filter_append, List.filter_cons_of_pos (by rw [h]; rfl), List.filter_nil]

private theorem quiet_contextEvent (j : Journal) {e : Event} (h : e.isContext = true) :
    (j.event e).quiet = j.quiet := by
  unfold quiet Journal.event
  rw [List.filter_append, List.filter_cons_of_neg (by rw [h]; exact Bool.false_ne_true), List.filter_nil,
    List.append_nil]

private theorem quiet_warn (j : Journal) (x : Error) : (j.warn x).quiet = j.quiet.warn x := by
  unfold warn
  split <;> rfl

end Journal

namespace State

/-- The state that does not record contexts, and did not before. -/
def quiet (s : State I) : State I := { s with traceContexts := false, journal := s.journal.quiet }

private theorem quiet_eventIf (s : State I) (b : Bool) {e : Event} (h : e.isContext = true) :
    (s.eventIf b e).quiet = s.quiet := by
  cases b with
  | true => exact congrArg (fun j => { s with traceContexts := false, journal := j }) (s.journal.quiet_contextEvent h)
  | false => rfl

private theorem quiet_openContext (s : State I) (name : String) :
    (s.openContext name).quiet = s.quiet.openContext name :=
  quiet_eventIf _ s.traceContexts rfl

private theorem quiet_takeFresh (s : State I) (n : Nat) : (s.takeFresh n).quiet = s.quiet.takeFresh n := by
  have hjournal := s.journal.quiet_event (e := .temporariesAllocated s.nextVar n s.path) rfl
  exact congrArg (fun j => { s.reserve n with
    traceContexts := false, journal := j.notice (.temporariesAllocated n s.nextVar) }) hjournal

private theorem quiet_enter (s : State I) (base : Int) (n : Nat) :
    s.quiet.enter base n = (s.enter base n).map quiet := by
  rw [enter_eq, enter_eq]
  show (do
    let lifted ← s.assumptions.mapM fun v => return (← Literal.ofValue v).lift.toValue
    return { s.quiet with varMap := s.varMap.extend base n, assumptions := lifted }) = _
  cases s.assumptions.mapM (m := Except Error) fun v => return (← Literal.ofValue v).lift.toValue <;> rfl

variable [Index I]

private theorem quiet_addClause (s : State I) (c : List Literal) :
    s.quiet.addClause c = (s.addClause c).map quiet := by
  show (do
    let d ← s.signedClause c
    if s.checkInvariants then s.checkAllocated d
    return { s.quiet with clauses := s.clauses ++ [d] }) = _
  unfold addClause
  cases s.signedClause c with
  | error x => rfl
  | ok d =>
    by_cases hc : s.checkInvariants = true
    · show (if s.checkInvariants = true then _ else _) = Except.map quiet (if s.checkInvariants = true then _ else _)
      rw [if_pos hc, if_pos hc]
      cases s.checkAllocated d <;> rfl
    · show (if s.checkInvariants = true then _ else _) = Except.map quiet (if s.checkInvariants = true then _ else _)
      rw [if_neg hc, if_neg hc]
      rfl

private theorem sameResult_map {ε β γ : Type} (f : β → γ) (x : Except ε β) :
    SameResult (fun b c => c = f b) x (x.map f) := by
  cases x with
  | error e => exact .error e
  | ok b => exact .ok rfl

theorem bisimilar_quiet : State.Bisimilar (fun s t : State I => t = s.quiet) Eq where
  nextVar_eq h := by
    cases h
    rfl
  warn {s t} x h := by
    cases h
    exact congrArg (fun j => { s with traceContexts := false, journal := j }) (Journal.quiet_warn _ x).symm
  addClause {s t c d} h hcd := by
    cases h
    cases hcd
    rw [quiet_addClause]
    exact sameResult_map quiet _
  openContext name h := by
    cases h
    exact (quiet_openContext _ name).symm
  closeContext h := by
    cases h
    rfl
  contextLeft name h h' := by
    cases h
    cases h'
    exact (quiet_eventIf _ _ rfl).symm
  assuming h hgs := by
    cases h
    cases hgs
    rfl
  restore h h' := by
    cases h
    cases h'
    rfl
  takeFresh n h := by
    cases h
    exact (quiet_takeFresh _ n).symm
  enter n h := by
    cases h
    rw [← quiet_takeFresh, quiet_enter]
    exact sameResult_map quiet _
  leave {s t u v} h h' := by
    cases h
    cases h'
    by_cases hback : u.nextVar < s.nextVar
    · have hback' : u.quiet.nextVar < s.quiet.nextVar := hback
      unfold State.leave
      dsimp only
      rw [if_pos hback, if_pos hback']
      exact .error _ rfl
    · have hback' : ¬u.quiet.nextVar < s.quiet.nextVar := hback
      unfold State.leave
      dsimp only
      rw [if_neg hback, if_neg hback']
      exact .ok rfl rfl

omit [Index I] in
private theorem quiet_finished (s : State I) (named : Int) : (s.finished named).quiet = s.quiet.finished named :=
  Journal.quiet_event _ rfl

end State

/-! ### Runs -/

variable [Index I]

/-- A run of an encoder that the library can build does not record contexts where it is told not to, and does all else
as before. -/
theorem Encoder.Composed.run_quiet {e : Encoder I α} (he : e.Composed) (vars : List Value)
    (embedding : Option (Table Value)) (config : Config) (j : Journal) :
    SameOutcome (fun j j' => j' = j.quiet) Eq (run vars (.encoder e) embedding config j)
      (run vars (.encoder e) embedding { config with traceContexts := false } j.quiet) := by
  obtain ⟨p, rfl⟩ := he
  unfold run
  cases VarMap.ofUniverse (I := I) vars embedding with
  | error x => exact .error x (Journal.quiet_warn j x).symm
  | ok m =>
    show SameOutcome _ _ (p.encoder.runFrom (.initial m config.checkInvariants config.traceContexts j))
      (p.encoder.runFrom (.initial m config.checkInvariants false j.quiet))
    have hsame := State.bisimilar_quiet.program (fun s t h => by cases h; rfl) (fun _ => rfl) p
      (.initial m config.checkInvariants config.traceContexts j) (.initial m config.checkInvariants false j.quiet) rfl
    unfold Encoder.runFrom
    generalize p.encoder.runOn (.initial m config.checkInvariants config.traceContexts j) = q at hsame ⊢
    generalize p.encoder.runOn (.initial m config.checkInvariants false j.quiet) = q' at hsame ⊢
    cases hsame with
    | error x hend =>
      cases hend
      exact .error x rfl
    | @ok a b t u hab hend =>
      cases hab
      cases hend
      have hfinished : t.quiet.checkFinished config.checkInvariants = t.checkFinished config.checkInvariants := rfl
      dsimp only [State.initial]
      rw [hfinished]
      cases t.checkFinished config.checkInvariants with
      | error x => exact .error x rfl
      | ok _ => exact .ok rfl (t.quiet_finished _).symm

end Clausify
