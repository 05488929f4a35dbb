import Clausify.Proofs.Composed
import Clausify.Proofs.Success

/-!
# What a composed encoder leaves alone

Assumptions, contexts and the variable map are a stack discipline: every scope puts them back, whether its body
succeeds or fails.  The formula only grows, the next free index does not fall, and a new literal belongs to an index
that was in use before or was taken meanwhile (`State.Frame`).  Across a temporary scope the indices in use inside
are those outside and the fresh ones (`usedIndices_extend`), which were taken meanwhile.
-/

namespace Clausify

/-! ### Literals of an index -/

private theorem namedIndex_mem {I : Type} {named : Table I} {v : Value} {i : I}
    (h : VarMap.namedIndex named v = .ok i) : i ∈ named.values := by
  unfold VarMap.namedIndex Table.find? at h
  split at h
  · cases hf : named.entries.find? (·.1.same v) with
    | none => simp [hf] at h
    | some e =>
      simp only [hf, Option.map_some, Except.ok.injEq] at h
      exact h ▸ List.mem_map_of_mem (List.mem_of_find?_eq_some hf)
  · cases h

variable {I α : Type} [Index I]

/-- A literal of an index that is in use or lies from `lo` on below `hi`. -/
def VarMap.Reaches (m : VarMap I) (lo hi : Int) (l : I) : Prop :=
  ∃ i, (l = i ∨ Index.negate i = .ok l) ∧ (i ∈ m.usedIndices ∨ ∃ n, lo ≤ n ∧ n < hi ∧ i = Index.ofInt n)

private theorem VarMap.Reaches.mono {m : VarMap I} {lo hi lo' hi' : Int} {l : I} (h : m.Reaches lo hi l)
    (hlo : lo' ≤ lo) (hhi : hi ≤ hi') : m.Reaches lo' hi' l := by
  obtain ⟨i, hl, hi | ⟨n, h1, h2, rfl⟩⟩ := h
  · exact ⟨i, hl, .inl hi⟩
  · exact ⟨_, hl, .inr ⟨n, by omega, by omega, rfl⟩⟩

theorem TempRange.mem_indices {r : TempRange} {n : Int} :
    n ∈ r.indices ↔ r.base ≤ n ∧ n < r.base + r.count := by
  simp only [TempRange.indices, List.mem_map, List.mem_range]
  constructor
  · rintro ⟨i, hi, rfl⟩
    omega
  · intro h
    exact ⟨(n - r.base).toNat, by omega, by omega⟩

theorem usedIndices_extend (m : VarMap I) (base count : Int) :
    (m.extend base count).usedIndices = m.usedIndices ++ (TempRange.indices ⟨base, count⟩).map Index.ofInt := by
  simp [VarMap.usedIndices, VarMap.extend, List.flatMap_append]

/-- The index of a variable is in use. -/
theorem index_mem_usedIndices {m : VarMap I} {v : Value} {i : I} (h : m.index v = .ok i) : i ∈ m.usedIndices := by
  obtain ⟨named, scopes⟩ := m
  unfold VarMap.index at h
  simp only at h
  induction scopes generalizing v with
  | nil => exact List.mem_append_left _ (namedIndex_mem h)
  | cons r rs ih =>
    have e : VarMap.mk named (r :: rs) = (VarMap.mk named rs).extend r.base r.count := rfl
    rw [e, usedIndices_extend, List.mem_append]
    cases v with
    | temp j =>
      simp only [VarMap.scopedIndex] at h
      split at h
      · rename_i hj
        cases h
        exact .inr (List.mem_map_of_mem (TempRange.mem_indices.2 ⟨by simp; omega, by simp; omega⟩))
      · cases h
    | outer w => exact .inl (ih h)
    | _ => cases h

theorem signedIndex_eq_ok {m : VarMap I} {l : Literal} {j : I} (h : m.signedIndex l = .ok j) :
    ∃ i, m.index l.var = .ok i ∧ (j = i ∨ Index.negate i = .ok j) := by
  unfold VarMap.signedIndex at h
  cases hi : m.index l.var with
  | error x => rw [hi] at h; cases h
  | ok i =>
    rw [hi] at h
    replace h : (if l.positive then pure i else Index.negate i) = Except.ok j := h
    split at h
    · cases h
      exact ⟨_, rfl, .inl rfl⟩
    · exact ⟨i, rfl, .inr h⟩

private theorem reaches_of_signedIndex {m : VarMap I} {l : Literal} {j : I} (h : m.signedIndex l = .ok j)
    (lo hi : Int) : m.Reaches lo hi j := by
  obtain ⟨i, hi, hj⟩ := signedIndex_eq_ok h
  exact ⟨i, hj, .inl (index_mem_usedIndices hi)⟩

/-! ### Frames -/

namespace State

/-- What lies between two states of a run at one level: the scopes are as they were, the formula has grown by
literals of indices in use and of fresh ones, and the next free index has not fallen. -/
structure Frame (s t : State I) : Prop where
  assumptions_eq : t.assumptions = s.assumptions
  contexts_eq : t.contexts = s.contexts
  varMap_eq : t.varMap = s.varMap
  checkInvariants_eq : t.checkInvariants = s.checkInvariants
  traceContexts_eq : t.traceContexts = s.traceContexts
  nextVar_le : s.nextVar ≤ t.nextVar
  clauses_eq : ∃ cs, t.clauses = s.clauses ++ cs ∧
    ∀ c ∈ cs, ∀ l ∈ c, s.varMap.Reaches s.nextVar t.nextVar l

namespace Frame

theorem refl (s : State I) : s.Frame s where
  assumptions_eq := rfl
  contexts_eq := rfl
  varMap_eq := rfl
  checkInvariants_eq := rfl
  traceContexts_eq := rfl
  nextVar_le := Int.le_refl _
  clauses_eq := ⟨[], by simp⟩

theorem trans {s t u : State I} (h : s.Frame t) (h' : t.Frame u) : s.Frame u where
  assumptions_eq := h'.assumptions_eq.trans h.assumptions_eq
  contexts_eq := h'.contexts_eq.trans h.contexts_eq
  varMap_eq := h'.varMap_eq.trans h.varMap_eq
  checkInvariants_eq := h'.checkInvariants_eq.trans h.checkInvariants_eq
  traceContexts_eq := h'.traceContexts_eq.trans h.traceContexts_eq
  nextVar_le := Int.le_trans h.nextVar_le h'.nextVar_le
  clauses_eq := by
    obtain ⟨cs, hcs, hl⟩ := h.clauses_eq
    obtain ⟨ds, hds, hl'⟩ := h'.clauses_eq
    refine ⟨cs ++ ds, by rw [hds, hcs, List.append_assoc], fun c hc l hlc => ?_⟩
    rcases List.mem_append.1 hc with hc | hc
    · exact (hl c hc l hlc).mono (Int.le_refl _) h'.nextVar_le
    · have := hl' c hc l hlc
      rw [h.varMap_eq] at this
      exact this.mono h.nextVar_le (Int.le_refl _)

/-- A change of the journal is no change. -/
theorem journal (s : State I) (j : Journal) : s.Frame { s with journal := j } :=
  { refl s with }

end Frame

/-- The signed indices of a clause: those of the assumptions, then those of its literals. -/
theorem signedClause_eq_ok {s : State I} {c : List Literal} {d : List I} :
    s.signedClause c = .ok d ↔ ∃ gs ls,
      List.Forall₂ (fun v l => ∃ g, Literal.ofValue v = .ok g ∧ s.varMap.signedIndex g = .ok l) s.assumptions gs ∧
      List.Forall₂ (fun l i => s.varMap.signedIndex l = .ok i) c ls ∧ d = gs ++ ls := by
  unfold signedClause
  rw [bind_eq_ok]
  simp only [mapM_eq_ok, bind_eq_ok]
  constructor
  · rintro ⟨gs, hgs, ls, hls, h⟩
    cases h
    exact ⟨gs, ls, hgs, hls, rfl⟩
  · rintro ⟨gs, ls, hgs, hls, rfl⟩
    exact ⟨gs, hgs, ls, hls, rfl⟩

theorem signedClause_reaches {s : State I} {c : List Literal} {d : List I} (h : s.signedClause c = .ok d)
    (lo hi : Int) : ∀ l ∈ d, s.varMap.Reaches lo hi l := by
  obtain ⟨gs, ls, hgs, hls, rfl⟩ := signedClause_eq_ok.1 h
  intro l hl
  rcases List.mem_append.1 hl with hl | hl
  · obtain ⟨v, -, g, -, hg⟩ := exists_mem_of_forall₂ hgs hl
    exact reaches_of_signedIndex hg lo hi
  · obtain ⟨g, -, hg⟩ := exists_mem_of_forall₂ hls hl
    exact reaches_of_signedIndex hg lo hi

theorem addClause_eq_ok {s t : State I} {c : List Literal} :
    s.addClause c = .ok t ↔ ∃ d, s.signedClause c = .ok d ∧
      (s.checkInvariants = true → s.checkAllocated d = .ok ()) ∧ t = { s with clauses := s.clauses ++ [d] } := by
  unfold addClause
  rw [bind_eq_ok]
  refine exists_congr fun d => and_congr_right fun _ => ?_
  cases hc : s.checkInvariants with
  | false =>
    simp only [Bool.false_eq_true, if_false, false_implies, true_and]
    exact ⟨fun h => by cases h; rfl, fun h => by rw [h]; rfl⟩
  | true =>
    simp only [if_true, true_implies]
    rw [bind_eq_ok]
    constructor
    · rintro ⟨⟨⟩, ha, h⟩
      cases h
      exact ⟨ha, rfl⟩
    · rintro ⟨ha, rfl⟩
      exact ⟨(), ha, rfl⟩

theorem frame_addClause {s t : State I} {c : List Literal} (h : s.addClause c = .ok t) : s.Frame t := by
  obtain ⟨d, hd, -, rfl⟩ := addClause_eq_ok.1 h
  exact { Frame.refl s with
    clauses_eq := ⟨[d], rfl, fun c hc => by
      rw [List.mem_singleton.1 hc]
      exact signedClause_reaches hd _ _⟩ }

omit [Index I] in
theorem eventIf_eq (s : State I) (record : Bool) (e : Event) : ∃ j, s.eventIf record e = { s with journal := j } := by
  unfold eventIf
  split <;> exact ⟨_, rfl⟩

omit [Index I] in
theorem openContext_eq (s : State I) (name : String) :
    ∃ j, s.openContext name = { s with contexts := s.contexts ++ [name], journal := j } := by
  unfold openContext
  dsimp only
  obtain ⟨j, e⟩ := eventIf_eq (State.notice { s with contexts := s.contexts ++ [name] } _) s.traceContexts _
  exact ⟨j, e⟩

theorem frame_context {s t : State I} {name : String} (h : (s.openContext name).Frame t) :
    s.Frame t.closeContext := by
  obtain ⟨j, e⟩ := s.openContext_eq name
  rw [e] at h
  exact { h with
    contexts_eq := by
      show t.contexts.dropLast = s.contexts
      rw [h.contexts_eq, List.dropLast_concat] }

theorem frame_unlessAny {s t : State I} {as : List Value} (h : Frame { s with assumptions := as } t) :
    s.Frame { t with assumptions := s.assumptions } :=
  { h with assumptions_eq := rfl }

theorem frame_takeFresh (s : State I) (n : Nat) : s.Frame (s.takeFresh n) :=
  { Frame.refl s with
    nextVar_le := Int.le_add_of_nonneg_right (Int.natCast_nonneg n)
    clauses_eq := ⟨[], (List.append_nil s.clauses).symm, by simp⟩ }

omit [Index I] in
/-- The state inside a temporary scope. -/
theorem enter_eq_ok {s inner : State I} {base : Int} {n : Nat} :
    s.enter base n = .ok inner ↔ ∃ gs, s.assumptions.mapM Literal.ofValue = .ok gs ∧
      inner = { s with varMap := s.varMap.extend base n, assumptions := gs.map fun g => g.lift.toValue } := by
  rw [enter_eq, mapM_return Literal.ofValue fun g => g.lift.toValue]
  cases s.assumptions.mapM Literal.ofValue with
  | error x =>
    constructor
    · intro h
      cases h
    · rintro ⟨gs, h, -⟩
      cases h
  | ok gs =>
    constructor
    · intro h
      cases h
      exact ⟨gs, rfl, rfl⟩
    · rintro ⟨gs', h, rfl⟩
      cases h
      rfl

omit [Index I] in
/-- A scope that did not set the next free index back hands it over. -/
theorem leave_of_le {s inner : State I} (h : s.nextVar ≤ inner.nextVar) :
    s.leave inner = .ok () { s with
      clauses := inner.clauses, contexts := inner.contexts, journal := inner.journal
      nextVar := inner.nextVar } := by
  unfold leave
  rw [if_neg (Int.not_lt.2 h)]

theorem frame_leave {s t inner : State I} {n : Nat} (he : (s.takeFresh n).enter s.nextVar n = .ok inner)
    (h : inner.Frame t) : s.Frame (endState ((s.takeFresh n).leave t)) := by
  obtain ⟨gs, -, rfl⟩ := enter_eq_ok.1 he
  have hle : (s.takeFresh n).nextVar ≤ t.nextVar := h.nextVar_le
  rw [leave_of_le hle, endState_ok]
  have hn : s.nextVar + n ≤ t.nextVar := hle
  obtain ⟨cs, hcs, hl⟩ := h.clauses_eq
  exact { frame_takeFresh s n with
    contexts_eq := h.contexts_eq
    nextVar_le := by
      show s.nextVar ≤ t.nextVar
      omega
    clauses_eq := by
      refine ⟨cs, hcs, fun c hc l hlc => ?_⟩
      obtain ⟨i, hi, hu | ⟨m, h1, h2, rfl⟩⟩ := hl c hc l hlc
      · rw [usedIndices_extend, List.mem_append] at hu
        rcases hu with hu | hu
        · exact ⟨i, hi, .inl hu⟩
        · -- a temporary of the scope is fresh outside
          obtain ⟨m, hm, rfl⟩ := List.mem_map.1 hu
          have := TempRange.mem_indices.1 hm
          exact ⟨_, hi, .inr ⟨m, this.1, by simp only at this ⊢; omega, rfl⟩⟩
      · have h1 : s.nextVar + n ≤ m := h1
        exact ⟨_, hi, .inr ⟨m, by omega, h2, rfl⟩⟩ }

end State

theorem Program.closed_frame : Program.Closed (State.Frame (I := I)) where
  refl := State.Frame.refl
  trans := State.Frame.trans
  warn s x := by
    unfold State.warn Journal.warn
    exact State.Frame.journal s _
  addClause := State.frame_addClause
  context := State.frame_context
  contextLeft s _ := State.Frame.journal s _
  unlessAny := State.frame_unlessAny
  takeFresh := State.frame_takeFresh
  leave := State.frame_leave

theorem Encoder.Composed.frame {e : Encoder I α} (he : e.Composed) (s : State I) : s.Frame (e.after s) := by
  obtain ⟨p, rfl⟩ := he
  exact Program.closed_frame.rel_after p s

/-- Whether a composed encoder succeeds or fails, it leaves assumptions, contexts and the variable map as they were.
The next free index has not fallen, the formula has only grown, and each literal of a new clause belongs to an index
in use or to one that was taken meanwhile. -/
theorem Encoder.Composed.after_restores_scopes {e : Encoder I α} (he : e.Composed) (s : State I) :
    let t := e.after s
    t.assumptions = s.assumptions ∧ t.contexts = s.contexts ∧ t.varMap = s.varMap ∧ s.nextVar ≤ t.nextVar ∧
      s.clauses <+: t.clauses ∧
      ∀ c ∈ t.clauses.drop s.clauses.length, ∀ l ∈ c, s.varMap.Reaches s.nextVar t.nextVar l := by
  intro t
  have h := he.frame s
  obtain ⟨cs, hcs, hl⟩ := h.clauses_eq
  refine ⟨h.assumptions_eq, h.contexts_eq, h.varMap_eq, h.nextVar_le, ⟨cs, hcs.symm⟩, ?_⟩
  have hd : t.clauses.drop s.clauses.length = cs := by
    rw [hcs, List.drop_left]
  rw [hd]
  exact hl

/-- A client that catches the failure of a guarded scope inside a context. -/
theorem Encoder.after_restores_scopes_of_caught_scope :
    let s : State Int := .initial (.ofTable .empty) true true .empty
    let e : Encoder Int (Except Error Unit) :=
      .attempt (.context "c" (.withFresh 2 (.unlessAny [.temp 0 true]
        (.seq [.require [.temp 1 true], .require [.temp 5 true]]))))
    e.Composed ∧ (e.after s).clauses = [[1, 2]] ∧ (e.after s).nextVar = 3 ∧ (e.after s).assumptions = s.assumptions ∧
      (e.after s).contexts = s.contexts := by
  intro s e
  have he : e.Composed := by
    refine .attempt (.context _ (.withFresh _ (.unlessAny _ (.seq fun f hf => ?_))))
    simp only [List.mem_cons, List.not_mem_nil, or_false] at hf
    rcases hf with rfl | rfl <;> exact composed_require _
  have h := he.after_restores_scopes s
  exact ⟨he, rfl, rfl, h.1, h.2.1⟩

end Clausify
