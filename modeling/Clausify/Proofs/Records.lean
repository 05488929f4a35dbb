import Clausify.Proofs.Lockstep
import Clausify.Proofs.Runs

/-!
# Records do not matter

The settings and the journal of a state serve checks and records only.  Sound states that differ in nothing else stay
so under each step (`State.bisimilar_twin`), so from them a program comes to the same result, and if they differ in
the check of invariants only it also leaves the same journal.  In particular an encoder that the library can build and
that succeeds on a universe does so in the same way however the run is configured and whatever was recorded before
(`Encoder.Composed.runOn_of_run`).
-/

namespace Clausify

variable {α : Type}

namespace State

/-- The states differ in nothing but settings and journal. -/
structure Alike (s t : State Int) : Prop where
  nextVar_eq : s.nextVar = t.nextVar
  clauses_eq : s.clauses = t.clauses
  varMap_eq : s.varMap = t.varMap
  assumptions_eq : s.assumptions = t.assumptions
  contexts_eq : s.contexts = t.contexts

variable {s t u v : State Int}

namespace Alike

theorem sound (h : s.Alike t) (hs : s.Sound) : t.Sound :=
  hs.congr h.varMap_eq.symm h.nextVar_eq.symm h.clauses_eq.symm

private theorem eventIf (h : s.Alike t) (b c : Bool) (e f : Event) : (s.eventIf b e).Alike (t.eventIf c f) := by
  obtain ⟨j, hs⟩ := s.eventIf_eq b e
  obtain ⟨k, ht⟩ := t.eventIf_eq c f
  rw [hs, ht]
  exact { h with }

private theorem closeContext (h : s.Alike t) : s.closeContext.Alike t.closeContext :=
  { h with contexts_eq := congrArg List.dropLast h.contexts_eq }

private theorem assuming (h : s.Alike t) (as : List Value) :
    Alike { s with assumptions := s.assumptions ++ as } { t with assumptions := t.assumptions ++ as } :=
  { h with assumptions_eq := congrArg (· ++ as) h.assumptions_eq }

private theorem restore (h : s.Alike t) (h' : u.Alike v) :
    Alike { u with assumptions := s.assumptions } { v with assumptions := t.assumptions } :=
  { h' with assumptions_eq := h.assumptions_eq }

private theorem takeFresh (h : s.Alike t) (n : Nat) : (s.takeFresh n).Alike (t.takeFresh n) :=
  { h with nextVar_eq := congrArg (· + (n : Int)) h.nextVar_eq }

private theorem signedClause_eq (h : s.Alike t) (c : List Literal) : s.signedClause c = t.signedClause c := by
  unfold signedClause
  rw [h.assumptions_eq, h.varMap_eq]

end Alike

/-- The states are sound and differ in nothing but settings and journal, and if `traced` holds in nothing but whether
the invariants are checked. -/
structure Twin (traced : Prop) (s t : State Int) : Prop extends s.Alike t where
  sound : s.Sound
  traceContexts_eq : traced → s.traceContexts = t.traceContexts
  journal_eq : traced → s.journal = t.journal

variable {traced : Prop}

private theorem Twin.eventIf (h : Twin traced s t) {b c : Bool} {e f : Event} (hb : traced → b = c)
    (he : traced → e = f) : Twin traced (s.eventIf b e) (t.eventIf c f) := by
  refine ⟨h.toAlike.eventIf b c e f, ?_, fun ht => ?_, fun ht => ?_⟩
  · obtain ⟨j, hs⟩ := s.eventIf_eq b e
    rw [hs]
    exact h.sound.congr rfl rfl rfl
  · obtain ⟨j, hs⟩ := s.eventIf_eq b e
    obtain ⟨k, ht'⟩ := t.eventIf_eq c f
    rw [hs, ht']
    exact h.traceContexts_eq ht
  · cases hb ht
    cases he ht
    unfold State.eventIf
    split
    · exact congrArg (Journal.event · e) (h.journal_eq ht)
    · exact h.journal_eq ht

private theorem Twin.openContext (h : Twin traced s t) (name : String) :
    Twin traced (s.openContext name) (t.openContext name) := by
  have hcontexts : s.contexts ++ [name] = t.contexts ++ [name] := congrArg (· ++ [name]) h.contexts_eq
  have hnamed (n : Notice) : Twin traced (State.notice { s with contexts := s.contexts ++ [name] } n)
      (State.notice { t with contexts := t.contexts ++ [name] } n) :=
    ⟨{ h.toAlike with contexts_eq := hcontexts }, h.sound.congr rfl rfl rfl, h.traceContexts_eq,
      fun ht => congrArg (Journal.notice · n) (h.journal_eq ht)⟩
  have hpath : State.path { s with contexts := s.contexts ++ [name] } =
      State.path { t with contexts := t.contexts ++ [name] } := congrArg "/".intercalate hcontexts
  unfold State.openContext
  dsimp only
  rw [hpath]
  exact (hnamed _).eventIf h.traceContexts_eq fun _ => by rw [h.nextVar_eq, h.clauses_eq]

private theorem Twin.takeFresh (h : Twin traced s t) (n : Nat) : Twin traced (s.takeFresh n) (t.takeFresh n) := by
  refine ⟨h.toAlike.takeFresh n, (frame_takeFresh s n).sound h.sound, h.traceContexts_eq, fun ht => ?_⟩
  simp only [State.takeFresh, State.reserve, State.notice, State.event, State.path, h.contexts_eq, h.nextVar_eq,
    h.journal_eq ht]

/-- A sound state takes the clause whether it is checked or not. -/
private theorem Twin.addClause (h : Twin traced s t) (c : List Literal) :
    SameResult (Twin traced) (s.addClause c) (t.addClause c) := by
  have hsound (s' : State Int) (hs' : s.addClause c = .ok s') : s'.Sound := (frame_addClause hs').sound h.sound
  rw [h.sound.addClause_eq] at hsound ⊢
  rw [(h.toAlike.sound h.sound).addClause_eq, ← h.signedClause_eq]
  cases hd : s.signedClause c with
  | error x => exact .error x
  | ok js =>
    rw [hd] at hsound
    have hclauses := congrArg (· ++ [js]) h.clauses_eq
    exact .ok ⟨{ h.toAlike with clauses_eq := hclauses }, hsound _ rfl, h.traceContexts_eq, h.journal_eq⟩

theorem Twin.enter (h : Twin traced s t) (n : Nat) :
    SameResult (Twin traced) ((s.takeFresh n).enter s.nextVar n) ((t.takeFresh n).enter t.nextVar n) := by
  have htaken := h.takeFresh n
  have hsound (inner : State Int) (he : (s.takeFresh n).enter s.nextVar n = .ok inner) : inner.Sound :=
    h.sound.enter he
  rw [← h.nextVar_eq]
  rw [State.enter_eq] at hsound ⊢
  rw [State.enter_eq, ← htaken.assumptions_eq]
  generalize List.mapM (m := Except Error) _ (s.takeFresh n).assumptions = r at hsound ⊢
  cases r with
  | error x => exact .error x
  | ok gs =>
    have hmap := congrArg (VarMap.extend · s.nextVar n) h.varMap_eq
    exact .ok ⟨{ htaken.toAlike with varMap_eq := hmap, assumptions_eq := rfl }, hsound _ rfl,
      htaken.traceContexts_eq, htaken.journal_eq⟩

private theorem Twin.leave (h : Twin traced s t) (h' : Twin traced u v) :
    SameOutcome (Twin traced) Eq (s.leave u) (t.leave v) := by
  have hclauses := h'.clauses_eq
  have hcontexts := h'.contexts_eq
  unfold State.leave
  rw [← h.nextVar_eq, ← h'.nextVar_eq]
  split
  · next hback =>
    refine .error _ ⟨{ h.toAlike with clauses_eq := hclauses, contexts_eq := hcontexts, nextVar_eq := rfl }, ?_,
      h.traceContexts_eq, h'.journal_eq⟩
    refine ⟨h.sound.varMap_sound, h.sound.nextVar_pos, fun c hc l hl => ?_⟩
    have hbetween := h'.sound.literals_between c hc l hl
    exact ⟨hbetween.1, Int.lt_trans hbetween.2 hback⟩
  · next hback =>
    refine .ok rfl ⟨{ h.toAlike with clauses_eq := hclauses, contexts_eq := hcontexts, nextVar_eq := rfl }, ?_,
      h.traceContexts_eq, h'.journal_eq⟩
    have hmap := h.sound.varMap_sound.mono (Int.not_lt.1 hback)
    exact ⟨hmap, h'.sound.nextVar_pos, h'.sound.literals_between⟩

theorem bisimilar_twin (traced : Prop) : State.Bisimilar (Twin traced) Eq where
  nextVar_eq h := h.nextVar_eq
  warn {s t} x h := by
    refine ⟨{ h.toAlike with }, h.sound.congr rfl rfl rfl, h.traceContexts_eq, fun ht => ?_⟩
    exact congrArg (Journal.warn · x) (h.journal_eq ht)
  addClause {s t c d} h hcd := by
    cases hcd
    exact h.addClause c
  openContext name h := h.openContext name
  closeContext h := ⟨h.toAlike.closeContext, h.sound.congr rfl rfl rfl, h.traceContexts_eq, h.journal_eq⟩
  contextLeft {s t u v} name h h' := by
    have hpath : (s.openContext name).path = (t.openContext name).path :=
      congrArg "/".intercalate (h.openContext name).contexts_eq
    exact h'.eventIf h.traceContexts_eq fun _ => by rw [hpath, h'.nextVar_eq, h'.clauses_eq]
  assuming {s t gs hs} h hgs := by
    cases hgs
    exact ⟨h.toAlike.assuming _, h.sound.congr rfl rfl rfl, h.traceContexts_eq, h.journal_eq⟩
  restore h h' := ⟨h.toAlike.restore h'.toAlike, h'.sound.congr rfl rfl rfl, h'.traceContexts_eq, h'.journal_eq⟩
  takeFresh n h := h.takeFresh n
  enter n h := h.enter n
  leave h h' := h.leave h'

end State

/-- A program is in lockstep with itself from sound states that differ in settings and journal. -/
theorem Program.lockstep_twin (traced : Prop) (p : Program α) :
    Encoder.Lockstep (State.Twin traced) Eq p.encoder p.encoder := by
  refine (State.bisimilar_twin traced).program (fun s t h => ?_) (fun _ => rfl) p
  unfold State.snapshot
  rw [h.nextVar_eq, h.clauses_eq, h.assumptions_eq, h.contexts_eq]

private theorem State.initial_twin {m : VarMap Int} {vars : List Value} (hm : m.IsOf vars) (ci tc ci' tc' : Bool)
    (j j' : Journal) : State.Twin False (State.initial m ci tc j) (State.initial m ci' tc' j') :=
  ⟨⟨rfl, rfl, rfl, rfl, rfl⟩, State.initial_sound hm ci tc j, False.elim, False.elim⟩

/-- Once a run succeeded, any run on the universe leads to a state from which its result can be read. -/
theorem Encoder.Composed.runOn_of_run {e : Encoder Int α} (he : e.Composed) {vars : List Value}
    {embedding : Option (Table Value)} {config : Config} {j j' : Journal} {r : Result Int α}
    (h : run vars (.encoder e) embedding config j = .ok r j') :
    ∃ m, VarMap.ofUniverse vars embedding = .ok m ∧ ∀ ci tc k, ∃ t,
      e.runOn (.initial m ci tc k) = .ok r.value t ∧ (State.initial m ci tc k).Frame t ∧
        r = ⟨r.value, t.clauses, m.named, t.nextVar - 1⟩ := by
  obtain ⟨m, hm, hr⟩ := run_eq_ok.1 h
  obtain ⟨s, hs, -, hres, -⟩ := Encoder.runFrom_eq_ok.1 hr
  obtain ⟨p, rfl⟩ := he
  refine ⟨m, hm, fun ci tc k => ?_⟩
  have hinitial :=
    State.initial_twin (VarMap.ofUniverse_spec hm) config.checkInvariants config.traceContexts ci tc j k
  have hsame := p.lockstep_twin False _ _ hinitial
  rw [hs] at hsame
  have hframe {t : State Int} (ht : p.encoder.runOn (.initial m ci tc k) = .ok r.value t) :
      (State.initial m ci tc k).Frame t := Program.closed_frame.rel_of_ok ht
  generalize p.encoder.runOn (.initial m ci tc k) = q at hsame hframe ⊢
  cases hsame with
  | @ok _ _ _ t ha hst =>
    cases ha
    have hmap : s.varMap = m := hst.varMap_eq.trans (hframe rfl).varMap_eq
    refine ⟨t, rfl, hframe rfl, ?_⟩
    rw [← hst.clauses_eq, ← hst.nextVar_eq, ← hmap]
    exact hres

end Clausify
