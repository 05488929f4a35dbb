import Clausify.Proofs.Allocation
import Clausify.Proofs.Runs

/-!
# The counter in the order of execution

The events of contexts and scopes show the counter where they arise.  A step that sets the counter back fails, but the
counter stays where it is, so a client that catches the failure goes on below indices that were handed out, which are
then handed out again (`Encoder.run_hands_out_twice`).  Where no failure of such a step is caught, the counter only
rises from event to event in every run that returns a result, whatever the steps of the client do to the state, and no
two scopes share an index (`Encoder.Built.run_climbs`).
-/

namespace Clausify

/-- The values of the counter that an event shows, in order. -/
def Event.counters : Event → List Int
  | .contextEntered _ n _ => [n]
  | .contextLeft _ n _ => [n]
  | .temporariesAllocated base n _ => [base, base + n]
  | _ => []

/-- From `lo` through the numbers to `hi` none is below the one before. -/
def Rises (lo : Int) : List Int → Int → Prop
  | [], hi => lo ≤ hi
  | n :: ns, hi => lo ≤ n ∧ Rises n ns hi

namespace Rises

variable {lo mid hi : Int} {ns ms : List Int}

private theorem le (h : Rises lo ns hi) : lo ≤ hi := by
  induction ns generalizing lo with
  | nil => exact h
  | cons n ns ih => exact Int.le_trans h.1 (ih h.2)

private theorem of_le (hlo : lo ≤ mid) (h : Rises mid ns hi) : Rises lo ns hi := by
  cases ns with
  | nil => exact Int.le_trans hlo h
  | cons n ns => exact ⟨Int.le_trans hlo h.1, h.2⟩

theorem append (h : Rises lo ns mid) (h' : Rises mid ms hi) : Rises lo (ns ++ ms) hi := by
  induction ns generalizing lo with
  | nil => exact of_le h h'
  | cons n ns ih => exact ⟨h.1, ih h.2⟩

private theorem between (h : Rises lo ns hi) : ∀ n ∈ ns, lo ≤ n ∧ n ≤ hi := by
  induction ns generalizing lo with
  | nil =>
    intro n hn
    cases hn
  | cons m ns ih =>
    intro n hn
    rcases List.mem_cons.1 hn with rfl | hn
    · exact ⟨h.1, h.2.le⟩
    · exact ih (of_le h.1 h.2) n hn

theorem pairwise (h : Rises lo ns hi) : ns.Pairwise (· ≤ ·) := by
  induction ns generalizing lo with
  | nil => exact List.Pairwise.nil
  | cons n ns ih => exact List.pairwise_cons.2 ⟨fun m hm => (h.2.between m hm).1, ih h.2⟩

end Rises

/-- Where the counter only rises, no two scopes share an index. -/
private theorem pairwise_disjoint_of_rises {lo hi : Int} {es : List Event}
    (h : Rises lo (es.flatMap Event.counters) hi) :
    (es.filterMap Event.range?).Pairwise fun r r' => ∀ n ∈ r.indices, n ∉ r'.indices := by
  induction es generalizing lo with
  | nil => exact List.Pairwise.nil
  | cons e es ih =>
    rw [List.flatMap_cons] at h
    cases e with
    | temporariesAllocated base n path =>
      obtain ⟨-, -, hrest⟩ : lo ≤ base ∧ base ≤ base + n ∧ Rises (base + n) (es.flatMap Event.counters) hi := h
      refine List.pairwise_cons.2 ⟨fun r hr k hk hk' => ?_, ih hrest⟩
      obtain ⟨e, he, hre⟩ := List.mem_filterMap.1 hr
      have hbase : base + n ≤ r.base := by
        cases e with
        | temporariesAllocated b m p =>
          cases hre
          exact (hrest.between b (List.mem_flatMap.2 ⟨_, he, List.mem_cons_self ..⟩)).1
        | _ => cases hre
      have h1 := TempRange.mem_indices.1 hk
      have h2 := TempRange.mem_indices.1 hk'
      dsimp only at h1
      omega
    | contextEntered path n k => exact ih h.2
    | contextLeft path n k => exact ih h.2
    | constraintTaken i kind => exact ih h
    | encodingFinished n k a => exact ih h

/-! ### States -/

namespace State

variable {s t u : State Int}

/-- The events between two states show a counter that only rises, from that of the first to that of the second. -/
def Climbs (s t : State Int) : Prop :=
  ∃ es, t.journal.events = s.journal.events ++ es ∧ Rises s.nextVar (es.flatMap Event.counters) t.nextVar

/-- Without events it is enough that the counter did not fall. -/
private theorem Climbs.of_le (hj : t.journal.events = s.journal.events) (hn : s.nextVar ≤ t.nextVar) : s.Climbs t :=
  ⟨[], by rw [hj, List.append_nil], hn⟩

private theorem Climbs.trans (h : s.Climbs t) (h' : t.Climbs u) : s.Climbs u := by
  obtain ⟨es, hes, hr⟩ := h
  obtain ⟨fs, hfs, hr'⟩ := h'
  refine ⟨es ++ fs, by rw [hfs, hes, List.append_assoc], ?_⟩
  rw [List.flatMap_append]
  exact hr.append hr'

private theorem climbs_event (s : State Int) (e : Event) (h : Rises s.nextVar e.counters s.nextVar) :
    s.Climbs (s.event e) := by
  refine ⟨[e], rfl, ?_⟩
  rw [List.flatMap_singleton]
  exact h

private theorem climbs_openContext (s : State Int) (name : String) : s.Climbs (s.openContext name) := by
  unfold openContext eventIf
  dsimp only
  split
  · exact ⟨[_], rfl, Int.le_refl _, Int.le_refl _⟩
  · exact .of_le rfl (Int.le_refl _)

private theorem climbs_takeFresh (s : State Int) (n : Nat) : s.Climbs (s.takeFresh n) := by
  refine ⟨[.temporariesAllocated s.nextVar n s.path], rfl, Int.le_refl _, ?_, Int.le_refl _⟩
  exact Int.le_add_of_nonneg_right (Int.natCast_nonneg n)

/-- A scope that is left does not set the counter back. -/
private theorem climbs_leave {inner : State Int} {n : Nat} (he : (s.takeFresh n).enter s.nextVar n = .ok inner)
    (h : inner.Climbs t) : s.Climbs (endState ((s.takeFresh n).leave t)) := by
  obtain ⟨gs, -, rfl⟩ := enter_eq_ok.1 he
  have hbody : (s.takeFresh n).Climbs t := h
  obtain ⟨es, hes, hr⟩ := hbody
  rw [leave_of_le hr.le, endState_ok]
  exact (s.climbs_takeFresh n).trans ⟨es, hes, hr⟩

end State

theorem Program.closed_climbs : Program.Closed State.Climbs where
  refl s := .of_le rfl (Int.le_refl _)
  trans := State.Climbs.trans
  warn s x := .of_le (Journal.events_warn s.journal x) (Int.le_refl _)
  addClause h := by
    obtain ⟨d, -, -, rfl⟩ := State.addClause_eq_ok.1 h
    exact .of_le rfl (Int.le_refl _)
  context {s t name} h := (s.climbs_openContext name).trans h
  contextLeft s path := s.climbs_event _ ⟨Int.le_refl _, Int.le_refl _⟩
  unlessAny h := h
  takeFresh := State.climbs_takeFresh
  leave := State.climbs_leave

/-! ### Encoders of clients -/

namespace Encoder

variable {α β ι : Type}

/-- The encoder succeeds in a state. -/
def Succeeds (e : Encoder Int α) (s : State Int) : Prop := ∃ a t, e.runOn s = .ok a t

/-- An encoder of parts of the library and steps of a client.  A step may do anything to the state, or fail, but makes
no record.  Where failures are caught it does not set the counter back. -/
inductive Built : Bool → {α : Type} → Encoder Int α → Prop where
  | library {caught : Bool} {α : Type} {e : Encoder Int α} : e.Composed → Built caught e
  | own {caught : Bool} {α : Type} {e : Encoder Int α} :
    (∀ s, (e.after s).journal.events = s.journal.events) →
      (caught = true → ∀ s, s.nextVar ≤ (e.after s).nextVar) → Built caught e
  | bind {caught : Bool} {α β : Type} {e : Encoder Int α} {f : α → Except Error (Encoder Int β)} :
    Built caught e → (∀ a g, f a = .ok g → Built caught g) → Built caught (e.bind f)
  | each {caught : Bool} {ι α : Type} {items : List ι} {f : ι → Except Error (Encoder Int α)} :
    (∀ i ∈ items, ∀ g, f i = .ok g → Built caught g) → Built caught (.eachChosen items f)
  | context {caught : Bool} {α : Type} {name : String} {e : Encoder Int α} :
    Built caught e → Built caught (.context name e)
  | unlessAny {caught : Bool} {α : Type} {guards : List Literal} {e : Encoder Int α} :
    Built caught e → Built caught (.unlessAny guards e)
  | withFresh {caught : Bool} {α : Type} {n : Nat} {e : Encoder Int α} :
    Built caught e → Built caught (.withFresh n e)
  | attempt {caught : Bool} {α : Type} {e : Encoder Int α} : Built true e → Built caught e.attempt

theorem Built.andThen {caught : Bool} {e : Encoder Int α} {g : Encoder Int β} (he : Built caught e)
    (hg : Built caught g) : Built caught (e.andThen g) :=
  he.bind (f := fun _ => .ok g) fun _ _ h => by cases h; exact hg

/-- The counter rises while the encoder is carried out, if it succeeds or failures are caught. -/
def Climbs (caught : Bool) (e : Encoder Int α) : Prop :=
  ∀ s, (caught = true ∨ e.Succeeds s) → s.Climbs (e.after s)

private theorem Succeeds.exists_step {e : Encoder Int α} {s : State Int} (h : e.Succeeds s) :
    ∃ a t, e.step s = .ok a t := by
  obtain ⟨a, t, h⟩ := h
  exact ⟨a, t, (runOn_eq_ok_iff.1 h).1⟩

variable {caught : Bool} {e : Encoder Int α} {s : State Int}

private theorem climbs_own (hj : ∀ s, (e.after s).journal.events = s.journal.events)
    (hn : caught = true → ∀ s, s.nextVar ≤ (e.after s).nextVar) : e.Climbs caught := by
  intro s hs
  refine .of_le (hj s) ?_
  rcases hs with hc | ⟨a, t, h⟩
  · exact hn hc s
  · rw [after_of_ok h]
    exact (runOn_eq_ok_iff.1 h).2

/-- What was chosen late climbs, if it could be chosen. -/
private theorem climbs_runChosen {choice : Except Error (Encoder Int α)} (h : ∀ g, choice = .ok g → g.Climbs caught)
    (hs : caught = true ∨ ∃ a t, runChosen choice s = .ok a t) : s.Climbs (endState (runChosen choice s)) := by
  cases choice with
  | error x => exact Program.closed_climbs.warn s x
  | ok g => exact h g rfl s hs

theorem Climbs.bind {f : α → Except Error (Encoder Int β)} (he : e.Climbs caught)
    (hf : ∀ a g, f a = .ok g → g.Climbs caught) : (e.bind f).Climbs caught := by
  intro s hs
  replace hs := hs.imp_right Succeeds.exists_step
  rw [after_eq_step]
  rw [bind_step] at hs ⊢
  cases hr : e.runOn s with
  | error x t =>
    rw [hr] at hs
    have h := he s (hs.imp_right fun ⟨_, _, h⟩ => by cases h)
    rwa [after_of_error hr] at h
  | ok a t =>
    rw [hr] at hs
    have h := he s (.inr ⟨a, t, hr⟩)
    rw [after_of_ok hr] at h
    exact h.trans (climbs_runChosen (hf a) hs)

private theorem Climbs.each {items : List ι} {f : ι → Except Error (Encoder Int α)}
    (hf : ∀ i ∈ items, ∀ g, f i = .ok g → g.Climbs caught) : (eachChosen items f).Climbs caught := by
  intro s hs
  replace hs := hs.imp_right Succeeds.exists_step
  rw [after_eq_step]
  induction items generalizing s with
  | nil => exact Program.closed_climbs.refl s
  | cons i is ih =>
    have hi := hf i (List.mem_cons_self ..)
    rw [eachChosen_cons_step] at hs ⊢
    cases hr : runChosen (f i) s with
    | error x t =>
      rw [hr] at hs
      have h := climbs_runChosen hi (s := s) (hs.imp_right fun ⟨_, _, h⟩ => by cases h)
      rwa [hr] at h
    | ok a t =>
      rw [hr] at hs
      have h := climbs_runChosen hi (s := s) (.inr ⟨a, t, hr⟩)
      rw [hr] at h
      exact State.Climbs.trans h (ih (fun j hj => hf j (List.mem_cons_of_mem _ hj)) t hs)

private theorem Climbs.context {name : String} (he : e.Climbs caught) : (Encoder.context name e).Climbs caught := by
  intro s hs
  have hbody : caught = true ∨ e.Succeeds (s.openContext name) := by
    refine hs.imp_right fun h => ?_
    obtain ⟨a, t, h⟩ := h.exists_step
    unfold Encoder.context at h
    dsimp only at h
    split at h
    · exact ⟨_, _, ‹_›⟩
    · cases h
  have hc := Program.closed_climbs.context (he _ hbody)
  rcases context_after name e s with ht | ⟨path, ht⟩
  · rw [ht]
    exact hc
  · rw [ht]
    exact hc.trans (Program.closed_climbs.contextLeft _ path)

private theorem Climbs.unlessAny {guards : List Literal} (he : e.Climbs caught) :
    (Encoder.unlessAny guards e).Climbs caught := by
  intro s hs
  have hbody : caught = true ∨ e.Succeeds { s with assumptions := s.assumptions ++ guards.map Literal.toValue } := by
    refine hs.imp_right fun h => ?_
    obtain ⟨a, t, h⟩ := h.exists_step
    unfold Encoder.unlessAny at h
    dsimp only at h
    split at h
    · exact ⟨_, _, ‹_›⟩
    · cases h
  rw [unlessAny_after]
  exact Program.closed_climbs.unlessAny (he _ hbody)

theorem Climbs.withFresh {n : Nat} (he : e.Climbs caught) : (Encoder.withFresh n e).Climbs caught := by
  intro s hs
  cases henter : (s.takeFresh n).enter s.nextVar n with
  | error x =>
    rw [withFresh_after_of_error henter]
    exact s.climbs_takeFresh n
  | ok inner =>
    have hbody : caught = true ∨ e.Succeeds inner := by
      refine hs.imp_right fun h => ?_
      obtain ⟨a, t, h⟩ := h.exists_step
      unfold Encoder.withFresh at h
      dsimp only at h
      rw [henter] at h
      dsimp only at h
      split at h
      · exact ⟨_, _, ‹_›⟩
      · split at h
        · cases h
        · cases h
    rw [withFresh_after henter]
    exact State.climbs_leave henter (he _ hbody)

private theorem Built.climbs (h : Built caught e) : e.Climbs caught := by
  induction h with
  | library he =>
    obtain ⟨p, rfl⟩ := he
    exact fun s _ => Program.closed_climbs.rel_after p s
  | own hj hn => exact climbs_own hj hn
  | bind _ _ ihe ihf => exact ihe.bind ihf
  | each _ ih => exact Climbs.each ih
  | context _ ih => exact ih.context
  | unlessAny _ ih => exact ih.unlessAny
  | withFresh _ ih => exact ih.withFresh
  | attempt _ ih =>
    intro s _
    rw [attempt_after]
    exact ih s (.inl rfl)

/-- In every run that returns a result, the counter only rises from each event to the next, and no index is in the
ranges of two scopes. -/
theorem Built.run_climbs {vars : List Value} {embedding : Option (Table Value)} {config : Config} {j j' : Journal}
    {r : Result Int α} (he : Built false e) (h : run vars (.encoder e) embedding config j = .ok r j') :
    ∃ es, j'.events = j.events ++ es ∧ (es.flatMap Event.counters).Pairwise (· ≤ ·) ∧
      (∀ n ∈ es.flatMap Event.counters, (vars.length : Int) < n ∧ n ≤ r.numVars + 1) ∧
      (es.filterMap Event.range?).Pairwise fun r r' => ∀ n ∈ r.indices, n ∉ r'.indices := by
  obtain ⟨m, hm, hr⟩ := run_eq_ok.1 h
  obtain ⟨t, ht, -, hres, hj⟩ := runFrom_eq_ok.1 hr
  have hclimbs := he.climbs _ (.inr ⟨r.value, t, ht⟩)
  rw [after_of_ok ht] at hclimbs
  obtain ⟨es, hes, hrises⟩ := hclimbs
  have hfirst := State.nextVar_initial (VarMap.ofUniverse_spec hm) config.checkInvariants config.traceContexts j
  have hlast : t.nextVar = r.numVars + 1 := by
    rw [hres]
    exact (Int.sub_add_cancel t.nextVar 1).symm
  -- the last event of a run shows no counter
  let fin : Event := .encodingFinished t.clauses.length vars.length (t.nextVar - 1 - vars.length)
  have hevents : j'.events = j.events ++ (es ++ [fin]) := by
    rw [hj, hfirst, Int.add_sub_cancel, ← List.append_assoc]
    exact congrArg (· ++ [fin]) hes
  have hcounters : (es ++ [fin]).flatMap Event.counters = es.flatMap Event.counters := by
    rw [List.flatMap_append]
    exact List.append_nil _
  rw [hfirst, hlast, ← hcounters] at hrises
  refine ⟨es ++ [fin], hevents, hrises.pairwise, fun n hn => ?_, pairwise_disjoint_of_rises hrises⟩
  have := hrises.between n hn
  omega

/-- A step sets the counter back after a scope and fails, the client goes on, and the next scope gets the index of the
first. -/
theorem run_hands_out_twice :
    let scope (p : Bool) : Encoder Int Unit := .withFresh 1 (.require [.temp 0 p])
    let back : Encoder Int Unit := .modify fun s => { s with nextVar := s.nextVar - 1 }
    let e : Encoder Int Unit := (scope true |>.andThen back).attempt.andThen (scope false)
    ∃ r j, run [.str "a"] (.encoder e) none {} .empty = .ok r j ∧ r.clauses = [[2], [-2]] ∧
      j.ranges = [⟨2, 1⟩, ⟨2, 1⟩] ∧ j.events.flatMap Event.counters = [2, 3, 2, 3] :=
  ⟨_, _, rfl, rfl, rfl, rfl⟩

/-- The client skips an index and goes on after a scope whose clause has no variable.  The index of that scope stays
taken. -/
theorem run_climbs_of_caught_failure :
    let skip : Encoder Int Unit := .modify fun s => { s with nextVar := s.nextVar + 1 }
    let failing : Encoder Int Unit := .withFresh 1 (.require [.named (.str "b") true])
    let scope : Encoder Int Unit := .context "c" (.withFresh 2 (.require [.temp 1 true]))
    ∃ (r : Result Int Unit) (j : Journal),
      run [.str "a"] (.encoder (skip.andThen (failing.attempt.andThen scope))) none {} .empty = .ok r j ∧
        r.numVars = 5 ∧ j.events.flatMap Event.counters = [3, 4, 4, 4, 6, 6] ∧
        (j.events.flatMap Event.counters).Pairwise (· ≤ ·) := by
  intro skip failing scope
  have hskip : Built false skip := .own (fun s => by rw [after_eq_step]; rfl) fun h => by cases h
  have hfailing : Built true failing := .library ((composed_require _).withFresh 1)
  have hscope : Built false scope := .library (((composed_require _).withFresh 2).context "c")
  have hbuilt := hskip.andThen (hfailing.attempt.andThen hscope)
  obtain ⟨r, j, hrun, hvars, hcounters⟩ : ∃ r j,
      run [.str "a"] (.encoder (skip.andThen (failing.attempt.andThen scope))) none {} .empty = .ok r j ∧
        r.numVars = 5 ∧ j.events.flatMap Event.counters = [3, 4, 4, 4, 6, 6] := ⟨_, _, rfl, rfl, rfl⟩
  obtain ⟨es, hes, hrises, -⟩ := hbuilt.run_climbs hrun
  have e : j.events = es := hes
  exact ⟨r, j, hrun, hvars, hcounters, e ▸ hrises⟩

end Encoder

end Clausify
