import Mathlib.Algebra.Ring.Int.Defs
import Clausify.Proofs.Monotone
import Clausify.Proofs.Nesting
import Clausify.Proofs.Quiet

/-!
# What a trace says about a run

The events of a run that returns a result are a faithful record: the ranges of the temporary scopes are the auxiliary
indices, one after the other, the last event sums up the result, and the number of clauses, like the counter, never
falls from one event to the next.  Where no failure was caught, the events nest as the contexts do, and where contexts
are not recorded, only their events are missing (`Encoder.Composed.run_traces`).
-/

namespace Clausify

private theorem Tiles.sum_count {lo hi : Int} {rs : List TempRange} (h : Tiles lo hi rs) :
    (rs.map TempRange.count).sum = hi - lo := by
  induction rs generalizing lo with
  | nil =>
    have e : lo = hi := h
    rw [e, Int.sub_self]
    rfl
  | cons r rs ih =>
    rw [List.map_cons, List.sum_cons, ih h.2.2]
    omega

/-! ### The size of the formula -/

/-- The numbers of clauses that an event shows. -/
def Event.sizes : Event → List Int
  | .contextEntered _ _ n | .contextLeft _ _ n | .encodingFinished n _ _ => [(n : Int)]
  | _ => []

namespace State

variable {I : Type} {s t u : State I}

/-- The events between two states show a formula that only grows, from that of the first to that of the second. -/
def Grows (s t : State I) : Prop :=
  ∃ es, t.journal.events = s.journal.events ++ es ∧
    Rises s.clauses.length (es.flatMap Event.sizes) t.clauses.length

/-- Without events it is enough that the formula did not shrink. -/
private theorem Grows.of_le (hj : t.journal.events = s.journal.events) (hn : s.clauses.length ≤ t.clauses.length) :
    s.Grows t :=
  ⟨[], by rw [hj, List.append_nil], Int.ofNat_le.2 hn⟩

private theorem Grows.trans (h : s.Grows t) (h' : t.Grows u) : s.Grows u := by
  obtain ⟨es, hes, hr⟩ := h
  obtain ⟨fs, hfs, hr'⟩ := h'
  refine ⟨es ++ fs, by rw [hfs, hes, List.append_assoc], ?_⟩
  rw [List.flatMap_append]
  exact hr.append hr'

private theorem grows_event (s : State I) (e : Event) (h : Rises s.clauses.length e.sizes s.clauses.length) :
    s.Grows (s.event e) := by
  refine ⟨[e], rfl, ?_⟩
  rw [List.flatMap_singleton]
  exact h

private theorem grows_openContext (s : State I) (name : String) : s.Grows (s.openContext name) := by
  unfold openContext eventIf
  dsimp only
  split
  · exact ⟨[_], rfl, Int.le_refl _, Int.le_refl _⟩
  · exact .of_le rfl (Nat.le_refl _)

private theorem grows_takeFresh (s : State I) (n : Nat) : s.Grows (s.takeFresh n) :=
  s.grows_event (.temporariesAllocated s.nextVar n s.path) (Int.le_refl _)

/-- The formula of a scope is that of the state outside. -/
private theorem grows_leave {inner : State I} {n : Nat} (he : (s.takeFresh n).enter s.nextVar n = .ok inner)
    (h : inner.Grows t) : s.Grows (endState ((s.takeFresh n).leave t)) := by
  obtain ⟨gs, -, rfl⟩ := enter_eq_ok.1 he
  have hbody : (s.takeFresh n).Grows t := h
  refine (s.grows_takeFresh n).trans ?_
  unfold State.leave
  dsimp only
  split
  · exact hbody
  · exact hbody

end State

private theorem Program.closed_grows {I : Type} [Index I] : Program.Closed (State.Grows (I := I)) where
  refl s := .of_le rfl (Nat.le_refl _)
  trans := State.Grows.trans
  warn s x := .of_le (Journal.events_warn s.journal x) (Nat.le_refl _)
  addClause {s t c} h := by
    obtain ⟨d, -, -, rfl⟩ := State.addClause_eq_ok.1 h
    refine .of_le rfl ?_
    rw [List.length_append]
    exact Nat.le_add_right _ _
  context {s t name} h := (s.grows_openContext name).trans h
  contextLeft s path := s.grows_event _ ⟨Int.le_refl _, Int.le_refl _⟩
  unlessAny h := h
  takeFresh := State.grows_takeFresh
  leave := State.grows_leave

/-! ### Runs -/

variable {α : Type}

/-- A run that returns a result adds to the events of its encoder the one that sums the result up. -/
theorem Encoder.run_events {e : Encoder Int α} {vars : List Value} {embedding : Option (Table Value)}
    {config : Config} {j j' : Journal} {r : Result Int α} (h : run vars (.encoder e) embedding config j = .ok r j') :
    ∃ m t, VarMap.ofUniverse vars embedding = .ok m ∧
      e.runOn (.initial m config.checkInvariants config.traceContexts j) = .ok r.value t ∧
      t.nextVar = r.numVars + 1 ∧ t.clauses = r.clauses ∧ j'.events = t.journal.events ++
        [.encodingFinished r.clauses.length vars.length (r.numVars - vars.length)] := by
  obtain ⟨m, hm, hr⟩ := run_eq_ok.1 h
  obtain ⟨t, ht, -, hres, hfin⟩ := runFrom_eq_ok.1 hr
  have hlast : t.nextVar = r.numVars + 1 := by
    rw [hres]
    exact (Int.sub_add_cancel t.nextVar 1).symm
  have hclauses : t.clauses = r.clauses := by rw [hres]
  refine ⟨m, t, hm, ht, hlast, hclauses, ?_⟩
  rw [hfin, State.nextVar_initial (VarMap.ofUniverse_spec hm), Int.add_sub_cancel]
  show t.journal.events ++ [.encodingFinished t.clauses.length vars.length (t.nextVar - 1 - vars.length)] = _
  rw [hclauses, hlast, Int.add_sub_cancel]

/-- The event that sums a result up shows no range. -/
private theorem Journal.ranges_finished {j j' : Journal} {size : Nat} {n fresh : Int}
    (h : j'.events = j.events ++ [.encodingFinished size n fresh]) : j'.ranges = j.ranges := by
  unfold Journal.ranges
  rw [h, List.filterMap_append]
  exact List.append_nil _

/-- From an empty record, the ranges are those between the counters. -/
private theorem State.Allocates.tiles_of_empty {s t : State Int} (h : s.Allocates t) (hs : s.journal.events = []) :
    Tiles s.nextVar t.nextVar t.journal.ranges := by
  obtain ⟨rs, hrs, htiles⟩ := h
  have hnone : s.journal.ranges = [] := congrArg (List.filterMap Event.range?) hs
  rw [hrs, hnone]
  exact htiles

/-- Where contexts are not recorded, a run from an empty record has the same result and lacks their events. -/
private theorem Encoder.Composed.run_without_contexts {e : Encoder Int α} (he : e.Composed) {vars : List Value}
    {embedding : Option (Table Value)} {config : Config} {j j' : Journal} {r : Result Int α} (hj : j.events = [])
    (h : run vars (.encoder e) embedding config j = .ok r j') :
    ∃ j'', run vars (.encoder e) embedding { config with traceContexts := false } j = .ok r j'' ∧
      j''.events = j'.events.filter fun e => !e.isContext := by
  have hquiet := he.run_quiet vars embedding config j
  have hsame : j.quiet = j := by
    unfold Journal.quiet
    rw [hj, List.filter_nil, ← hj]
  rw [hsame, h] at hquiet
  generalize run vars (.encoder e) embedding { config with traceContexts := false } j = q at hquiet ⊢
  cases hquiet with
  | ok hr hend =>
    cases hr
    cases hend
    exact ⟨_, rfl, rfl⟩

/-- In a run that returns a result from an empty record, the ranges of the temporaries follow each other from the
first index above the universe to the last one, also where failures are caught, and neither the counter nor the number
of clauses falls from an event to the next.  The last event sums up the result.  If contexts are recorded and no
failure is caught, the events before it nest as the contexts do.  If contexts are not recorded, the result is the
same, and so are the events but for those of contexts. -/
theorem Encoder.Composed.run_traces {e : Encoder Int α} (he : e.Composed) {vars : List Value}
    {embedding : Option (Table Value)} {config : Config} {j j' : Journal} {r : Result Int α} (hj : j.events = [])
    (h : run vars (.encoder e) embedding config j = .ok r j') :
    Tiles (vars.length + 1) (r.numVars + 1) j'.ranges ∧
    (j'.ranges.map TempRange.count).sum = r.numVars - vars.length ∧
    (j'.events.flatMap Event.counters).Pairwise (· ≤ ·) ∧ (j'.events.flatMap Event.sizes).Pairwise (· ≤ ·) ∧
    (∃ es, j'.events = es ++ [.encodingFinished r.clauses.length vars.length (r.numVars - vars.length)] ∧
      (config.traceContexts = true →
        (∀ m, VarMap.ofUniverse vars embedding = .ok m → e.Uncaught (.initial m config.checkInvariants true j)) →
          Event.Nested [] es)) ∧
    ∃ j'', run vars (.encoder e) embedding { config with traceContexts := false } j = .ok r j'' ∧
      j''.events = j'.events.filter fun e => !e.isContext := by
  have hwithout := he.run_without_contexts hj h
  obtain ⟨m, t, hm, ht, hlast, hclauses, hevents⟩ := run_events h
  obtain ⟨p, rfl⟩ := he
  -- nothing was recorded before, so the events before the last one are those of the encoder
  have hsince {es : List Event} (hes : t.journal.events = j.events ++ es) : t.journal.events = es := by
    rw [hes, hj]
    rfl
  have htiles : Tiles (vars.length + 1) (r.numVars + 1) j'.ranges := by
    have htiles := (Program.closed_allocates.rel_of_ok ht).tiles_of_empty hj
    rw [State.nextVar_initial (VarMap.ofUniverse_spec hm), hlast] at htiles
    rw [Journal.ranges_finished hevents]
    exact htiles
  refine ⟨htiles, ?_, ?_, ?_, ⟨_, hevents, fun htrace hcaught => ?_⟩, hwithout⟩
  · rw [htiles.sum_count]
    omega
  · obtain ⟨es, hes, hrises⟩ := Program.closed_climbs.rel_of_ok ht
    rw [hevents, hsince hes]
    simpa [Event.counters] using hrises.pairwise
  · obtain ⟨es, hes, hrises⟩ := Program.closed_grows.rel_of_ok ht
    have hfinal : Rises t.clauses.length [(t.clauses.length : Int)] t.clauses.length := ⟨Int.le_refl _, Int.le_refl _⟩
    rw [hevents, hsince hes, List.flatMap_append, List.flatMap_singleton, ← hclauses]
    exact (hrises.append hfinal).pairwise
  · obtain ⟨-, -, es, hes, hnested⟩ := (hcaught m hm).nests rfl (htrace ▸ ht)
    rw [hsince hes]
    exact hnested

/-- A bound on the variables, inside of two contexts of which the outer one has a temporary of its own. -/
theorem Encoder.run_traces_of_nested_contexts :
    let lits : List Literal := [.named (.str "a") true, .named (.str "b") true]
    let e : Encoder Int Unit := .context "c" (.withFresh 1 (.context "d"
      (Cardinality.encode (.atMost (lits.map Literal.lift) 1))))
    e.Composed ∧ Journal.empty.events = [] ∧
      (∀ m, VarMap.ofUniverse [.str "a", .str "b"] none = .ok m → e.Uncaught (.initial m true true .empty)) ∧
      ∃ r j j', run [.str "a", .str "b"] (.encoder e) none {} .empty = .ok r j ∧
        run [.str "a", .str "b"] (.encoder e) none { traceContexts := false } .empty = .ok r j' ∧
        j.events = [.contextEntered "c" 3 0, .temporariesAllocated 3 1 "c", .contextEntered "c/d" 4 0,
          .temporariesAllocated 4 1 "c/d", .contextLeft "c/d" 5 2, .contextLeft "c" 5 2, .encodingFinished 2 2 2] ∧
        j'.events = [.temporariesAllocated 3 1 "c", .temporariesAllocated 4 1 "c/d", .encodingFinished 2 2 2] ∧
        Tiles 3 5 j.ranges ∧ Event.Nested [] j.events.dropLast := by
  intro lits e
  have he : e.OfLibrary := .context "c" (.withFresh 1 (.context "d" (.cardinality _)))
  have hcaught (m : VarMap Int) : e.Uncaught (.initial m true true .empty) := he.uncaught _
  obtain ⟨r, j, hr, hvars, hevents⟩ : ∃ r j, run [.str "a", .str "b"] (.encoder e) none {} .empty = .ok r j ∧
      r.numVars = 4 ∧ j.events = [.contextEntered "c" 3 0, .temporariesAllocated 3 1 "c", .contextEntered "c/d" 4 0,
        .temporariesAllocated 4 1 "c/d", .contextLeft "c/d" 5 2, .contextLeft "c" 5 2, .encodingFinished 2 2 2] :=
    ⟨_, _, rfl, rfl, rfl⟩
  obtain ⟨htiles, -, -, -, ⟨es, hes, hnested⟩, j', hr', hevents'⟩ := he.composed.run_traces rfl hr
  refine ⟨he.composed, rfl, fun m _ => hcaught m, r, j, j', hr, hr', hevents, ?_, ?_, ?_⟩
  · rw [hevents', hevents]
    rfl
  · rw [hvars] at htiles
    exact htiles
  · rw [hes, List.dropLast_concat]
    exact hnested rfl fun m _ => hcaught m

end Clausify
