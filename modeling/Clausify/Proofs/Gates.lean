import Clausify.Gate
import Clausify.Proofs.Emission
import Clausify.Proofs.Meaning

/-!
# The meaning of gates

The clauses of a gate hold exactly if the gate says something true (`Gate.clauses_hold_iff`), and they have no other
variables than its literals, so its encoder means the gate (`Gate.means`).  It takes no indices, so under guards the
clauses that it appends hold exactly if a guard does or the gate (`Gate.encode_appends`).  The same clauses come about
where the gate is put together from guarded clauses by loops and sequences (`Gate.adds_composed`).
-/

namespace Clausify.Gate

/-- The literals of a gate. -/
def literals {L : Type} : Gate L → List L
  | allImplyAny hyps concs | anyImplyAny hyps concs | allImplyAll hyps concs | anyImplyAll hyps concs => hyps ++ concs
  | allImply hyps conc | anyImply hyps conc => hyps ++ [conc]
  | implyAny hyp concs | implyAll hyp concs => hyp :: concs
  | imply a b | equivalent a b => [a, b]
  | isAll v vs | isAny v vs => v :: vs
  | isIff v a b => [v, a, b]

/-- What a gate says about an environment. -/
def Holds (ρ : Env) : Gate Literal → Prop
  | allImplyAny hyps concs => (∀ h ∈ hyps, h.Holds ρ) → ∃ c ∈ concs, c.Holds ρ
  | allImply hyps conc => (∀ h ∈ hyps, h.Holds ρ) → conc.Holds ρ
  | implyAny hyp concs => hyp.Holds ρ → ∃ c ∈ concs, c.Holds ρ
  | anyImplyAny hyps concs => (∃ h ∈ hyps, h.Holds ρ) → ∃ c ∈ concs, c.Holds ρ
  | anyImply hyps conc => (∃ h ∈ hyps, h.Holds ρ) → conc.Holds ρ
  | allImplyAll hyps concs => (∀ h ∈ hyps, h.Holds ρ) → ∀ c ∈ concs, c.Holds ρ
  | implyAll hyp concs => hyp.Holds ρ → ∀ c ∈ concs, c.Holds ρ
  | anyImplyAll hyps concs => (∃ h ∈ hyps, h.Holds ρ) → ∀ c ∈ concs, c.Holds ρ
  | imply a b => a.Holds ρ → b.Holds ρ
  | equivalent a b => a.Holds ρ ↔ b.Holds ρ
  | isAll v vs => v.Holds ρ ↔ ∀ c ∈ vs, c.Holds ρ
  | isAny v vs => v.Holds ρ ↔ ∃ c ∈ vs, c.Holds ρ
  | isIff v a b => v.Holds ρ ↔ (a.Holds ρ ↔ b.Holds ρ)

private theorem exists_mem_implication {ρ : Env} {hyps concs : List Literal} :
    (∃ l ∈ implication hyps concs, l.Holds ρ) ↔ ((∀ h ∈ hyps, h.Holds ρ) → ∃ c ∈ concs, c.Holds ρ) := by
  unfold implication
  simp only [List.mem_append, or_and_right, exists_or, List.mem_map, exists_exists_and_eq_and, Literal.holds_negate]
  rw [← not_imp_not, or_iff_not_imp_left]
  constructor
  · intro h hc hh
    refine hc (h ?_)
    rintro ⟨l, hl, hn⟩
    exact hn (hh l hl)
  · intro h hn
    by_contra hc
    exact h hc fun l hl => by_contra fun hl' => hn ⟨l, hl, hl'⟩

theorem clauses_hold_iff (g : Gate Literal) (ρ : Env) : (∀ c ∈ g.clauses, ∃ l ∈ c, l.Holds ρ) ↔ g.Holds ρ := by
  cases g
  all_goals
    simp only [clauses, Holds, List.forall_mem_append, List.forall_mem_map, List.forall_mem_cons, List.mem_flatMap,
      exists_mem_implication, List.mem_singleton, exists_eq_left, forall_eq]
  case anyImplyAny | anyImply => simp only [forall_exists_index, and_imp]
  case allImplyAll | implyAll => exact ⟨fun h hh c hc => h c hc hh, fun h c hc hh => h hh c hc⟩
  case anyImplyAll hyps concs =>
    constructor
    · rintro h ⟨a, ha, hh⟩ c hc
      have := h _ ⟨a, ha, List.mem_map_of_mem hc⟩
      rw [exists_mem_implication] at this
      simpa using this (by simpa using hh)
    · rintro h _ ⟨a, ha, hd⟩
      obtain ⟨c, hc, rfl⟩ := List.mem_map.1 hd
      rw [exists_mem_implication]
      intro hh
      exact ⟨c, List.mem_singleton_self c, h ⟨a, ha, hh a (List.mem_singleton_self a)⟩ c hc⟩
  case equivalent a b => exact iff_def.symm
  case isAll v vs =>
    constructor
    · rintro ⟨h, h'⟩
      exact ⟨fun hv l hl => h l hl hv, h'⟩
    · intro h
      exact ⟨fun l hl hv => h.1 hv l hl, h.2⟩
  case isAny v vs =>
    constructor
    · rintro ⟨h, h'⟩
      refine ⟨h, ?_⟩
      rintro ⟨l, hl, hh⟩
      exact h' l hl hh
    · intro h
      exact ⟨h.1, fun l hl hh => h.2 ⟨l, hl, hh⟩⟩
  case isIff v a b =>
    have hlast : (∃ l ∈ [a, b, v], l.Holds ρ) ↔ a.Holds ρ ∨ b.Holds ρ ∨ v.Holds ρ := by simp
    rw [hlast]
    by_cases ha : a.Holds ρ <;> by_cases hb : b.Holds ρ <;> simp [ha, hb]

private theorem var_mem_implication {L : List Literal} {hyps concs : List Literal} (hh : ∀ h ∈ hyps, h ∈ L)
    (hc : ∀ c ∈ concs, c ∈ L) : ∀ l ∈ implication hyps concs, ∃ l' ∈ L, l.var = l'.var := by
  intro l hl
  rcases List.mem_append.1 hl with hl | hl
  · obtain ⟨h, hm, rfl⟩ := List.mem_map.1 hl
    exact ⟨h, hh h hm, h.var_negate⟩
  · exact ⟨l, hc l hl, rfl⟩

private theorem var_mem_clauses (g : Gate Literal) : ∀ c ∈ g.clauses, ∀ l ∈ c, ∃ l' ∈ g.literals, l.var = l'.var := by
  intro c hc
  cases g
  all_goals
    simp only [clauses, List.mem_append, List.mem_cons, List.mem_map, List.mem_flatMap, List.not_mem_nil,
      or_false] at hc
  case allImplyAny | allImply | implyAny | imply =>
    subst hc
    exact var_mem_implication (by simp +contextual [literals]) (by simp +contextual [literals])
  case anyImplyAny | anyImply | allImplyAll | implyAll =>
    obtain ⟨a, ha, rfl⟩ := hc
    exact var_mem_implication (by simp +contextual [literals, ha]) (by simp +contextual [literals, ha])
  case anyImplyAll =>
    obtain ⟨a, ha, b, hb, rfl⟩ := hc
    exact var_mem_implication (by simp [literals, ha]) (by simp [literals, hb])
  case equivalent =>
    rcases hc with rfl | rfl
    · exact var_mem_implication (by simp +contextual [literals]) (by simp +contextual [literals])
    · exact var_mem_implication (by simp +contextual [literals]) (by simp +contextual [literals])
  case isAll =>
    rcases hc with ⟨a, ha, rfl⟩ | rfl
    · exact var_mem_implication (by simp [literals]) (by simp [literals, ha])
    · exact var_mem_implication (by simp +contextual [literals]) (by simp [literals])
  case isAny =>
    rcases hc with rfl | ⟨a, ha, rfl⟩
    · exact var_mem_implication (by simp [literals]) (by simp +contextual [literals])
    · exact var_mem_implication (by simp [literals, ha]) (by simp [literals])
  case isIff v a b =>
    rcases hc with rfl | rfl | rfl | rfl
    · exact var_mem_implication (by simp +contextual [literals]) (by simp +contextual [literals])
    · exact var_mem_implication (by simp +contextual [literals]) (by simp +contextual [literals])
    · exact var_mem_implication (by simp +contextual [literals]) (by simp +contextual [literals])
    · intro l hl
      exact ⟨l, by simp [literals] at hl ⊢; tauto, rfl⟩

theorem means {known : Value → Prop} {g : Gate Literal} (hg : ∀ l ∈ g.literals, known l.var) :
    (g.encode : Encoder Int Unit).Means known fun ρ => g.Holds ρ := by
  refine (Encoder.means_requireAll fun c hc l hl => ?_).congr fun ρ => g.clauses_hold_iff ρ
  obtain ⟨l', hl', e⟩ := g.var_mem_clauses c hc l hl
  rw [e]
  exact hg l' hl'

/-! ### Composition -/

section

variable {I : Type} [Index I]

/-- The conclusions as a clause under the hypotheses. -/
def guarded (hyps concs : List Literal) : Encoder I Unit :=
  .ifAll hyps (.require concs)

/-- A gate put together from guarded clauses. -/
def composed : Gate Literal → Encoder I Unit
  | allImplyAny hyps concs => guarded hyps concs
  | allImply hyps conc => guarded hyps [conc]
  | implyAny hyp concs => guarded [hyp] concs
  | anyImplyAny hyps concs => .each hyps fun h => guarded [h] concs
  | anyImply hyps conc => .each hyps fun h => guarded [h] [conc]
  | allImplyAll hyps concs => .each concs fun c => guarded hyps [c]
  | implyAll hyp concs => .each concs fun c => guarded [hyp] [c]
  | anyImplyAll hyps concs => .each hyps fun h => .each concs fun c => guarded [h] [c]
  | imply a b => guarded [a] [b]
  | equivalent a b => .seq [guarded [a] [b], guarded [b] [a]]
  | isAll v vs => .seq [.each vs fun c => guarded [v] [c], guarded vs [v]]
  | isAny v vs => .seq [guarded [v] vs, .each vs fun h => guarded [h] [v]]
  | isIff v a b => .seq [guarded [v, a] [b], guarded [v, b] [a], guarded [a, b] [v], .require [a, b, v]]

private theorem adds_guarded (hyps concs : List Literal) :
    (guarded hyps concs : Encoder I Unit).Adds [implication hyps concs] :=
  Encoder.adds_unlessAny (hyps.map Literal.negate) concs

private theorem adds_each {ι : Type} (items : List ι) (hyps concs : ι → List Literal) :
    (Encoder.each items fun i => guarded (hyps i) (concs i) : Encoder I Unit).Adds
      (items.map fun i => implication (hyps i) (concs i)) := by
  rw [List.map_eq_flatMap]
  exact Encoder.Adds.each fun i => adds_guarded (hyps i) (concs i)

/-- A gate does the same by its clauses and by its composition. -/
theorem adds_composed (g : Gate Literal) : (g.composed : Encoder I Unit).Adds g.clauses := by
  cases g with
  | allImplyAny hyps concs => exact adds_guarded hyps concs
  | allImply hyps conc => exact adds_guarded hyps [conc]
  | implyAny hyp concs => exact adds_guarded [hyp] concs
  | anyImplyAny hyps concs => exact adds_each hyps (fun h => [h]) fun _ => concs
  | anyImply hyps conc => exact adds_each hyps (fun h => [h]) fun _ => [conc]
  | allImplyAll hyps concs => exact adds_each concs (fun _ => hyps) fun c => [c]
  | implyAll hyp concs => exact adds_each concs (fun _ => [hyp]) fun c => [c]
  | anyImplyAll hyps concs => exact Encoder.Adds.each fun h => adds_each concs (fun _ => [h]) fun c => [c]
  | imply a b => exact adds_guarded [a] [b]
  | equivalent a b => exact Encoder.Adds.seq (.cons (adds_guarded [a] [b]) (.cons (adds_guarded [b] [a]) .nil))
  | isAll v vs =>
    have hall := adds_each (I := I) vs (fun _ => [v]) fun c => [c]
    exact Encoder.Adds.seq (.cons hall (.cons (adds_guarded vs [v]) .nil))
  | isAny v vs =>
    have hany := adds_each (I := I) vs (fun h => [h]) fun _ => [v]
    have h := Encoder.Adds.seq (.cons (adds_guarded [v] vs) (.cons hany .nil))
    rw [List.flatten_cons, List.flatten_cons, List.flatten_nil, List.append_nil] at h
    exact h
  | isIff v a b =>
    have hlast := Encoder.adds_require (I := I) [a, b, v]
    exact Encoder.Adds.seq (.cons (adds_guarded [v, a] [b]) (.cons (adds_guarded [v, b] [a])
      (.cons (adds_guarded [a, b] [v]) (.cons hlast .nil))))

end

/-! ### Gates under guards -/

/-- In a sound state with guards in scope, a gate on literals in scope succeeds, and nothing but the formula changes.
Values of the indices satisfy the clauses that it appends exactly if they make a guard or the gate true.  Its
composition from guarded clauses does the same. -/
theorem encode_appends {s : State Int} (hs : s.Sound) {guards : List Literal}
    (ha : s.assumptions = guards.map Literal.toValue) (hg : ∀ l ∈ guards, ∃ i, s.varMap.index l.var = .ok i)
    (g : Gate Literal) (hl : ∀ l ∈ g.literals, ∃ i, s.varMap.index l.var = .ok i) :
    g.composed.runOn s = g.encode.runOn s ∧
      ∃ cs, g.encode.runOn s = .ok () { s with clauses := s.clauses ++ cs } ∧
        ∀ σ, Cnf.Satisfies σ cs ↔ (∃ l ∈ guards, l.Holds (s.varMap.env σ)) ∨ g.Holds (s.varMap.env σ) := by
  refine ⟨congrFun (adds_composed g) s, ?_⟩
  have hready : s.Ready guards fun v => ∃ i, s.varMap.index v = .ok i := ⟨hs, ha, hg, fun v hv => hv⟩
  obtain ⟨⟨⟩, t, hr, ht⟩ := means hl s guards hready
  obtain ⟨cs, -, rfl⟩ := Encoder.requireAll_eq_ok hr
  refine ⟨cs, hr, fun σ => ?_⟩
  -- no index is taken, so there is nothing to choose
  have hiff := ht.solvable_iff σ
  rw [State.newClauses, List.drop_left, Cnf.solvable_self] at hiff
  exact hiff

/-- Inside a scope, under a guard `b` from outside, a temporary that is defined as its own disjunction with `a`: it is
true wherever `a` is. -/
theorem encode_appends_of_own_argument :
    let named : Table Int := ⟨[(.str "a", 1), (.str "b", 2)], by decide⟩
    let a : Literal := .lift (.named (.str "a") true)
    let b : Literal := .lift (.named (.str "b") true)
    let s : State Int :=
      { nextVar := 4, clauses := [], varMap := (VarMap.ofTable named).extend 3 1, assumptions := [b.toValue]
        contexts := [], checkInvariants := true, traceContexts := true, journal := .empty }
    ∃ cs, (isAny (.temp 0 true) [.temp 0 true, a, a]).encode.runOn s = .ok () { s with clauses := cs } ∧
      ∀ σ, Cnf.Satisfies σ cs ↔ σ 2 = true ∨ (σ 1 = true → σ 3 = true) := by
  intro named a b s
  have hs : s.Sound := (State.check_eq_ok_iff (by decide)).1 rfl
  have ha : s.assumptions = [b].map Literal.toValue := rfl
  have hb : ∀ l ∈ [b], ∃ i, s.varMap.index l.var = .ok i := by
    intro l hl
    rw [List.mem_singleton.1 hl]
    exact ⟨2, rfl⟩
  have hl : ∀ l ∈ (isAny (.temp 0 true) [.temp 0 true, a, a]).literals, ∃ i, s.varMap.index l.var = .ok i := by
    simp only [literals, List.forall_mem_cons]
    exact ⟨⟨3, rfl⟩, ⟨3, rfl⟩, ⟨1, rfl⟩, ⟨1, rfl⟩, fun l hl => absurd hl List.not_mem_nil⟩
  obtain ⟨-, cs, hr, hiff⟩ := encode_appends hs ha hb _ hl
  refine ⟨cs, hr, fun σ => (hiff σ).trans (or_congr ?_ ?_)⟩
  · simp only [List.mem_singleton, exists_eq_left]
    rfl
  · have ha : a.Holds (s.varMap.env σ) ↔ σ 1 = true := Iff.rfl
    have ht : (Literal.temp 0 true).Holds (s.varMap.env σ) ↔ σ 3 = true := Iff.rfl
    simp only [Holds, List.exists_mem_cons_iff, List.not_mem_nil, false_and, exists_false, or_false, or_self, ha, ht]
    cases σ 1 <;> cases σ 3 <;> decide

end Clausify.Gate
