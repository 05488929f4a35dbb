import Clausify.Encoder.Clause
import Clausify.Proofs.Environment
import Clausify.Proofs.Laws

/-!
# The meaning of encoders

An encoder means a property of environments if it always succeeds and its clauses can be satisfied, by values of the
indices that it takes, exactly where some guard holds or the property does (`Encoder.Means`).  Meanings are composed
like encoders: sequences are conjunctions, guards alternatives, and a temporary scope quantifies over the values of
its temporaries (`Means.withFresh`).  There the guards are the outer ones, lifted, so their values do not depend on
the temporaries.
-/

namespace Clausify

namespace State

/-- The clauses that were added between two states. -/
def newClauses (s t : State Int) : List (List Int) := t.clauses.drop s.clauses.length

theorem Frame.clauses_append {s t : State Int} (h : s.Frame t) : t.clauses = s.clauses ++ s.newClauses t := by
  obtain ⟨cs, hcs, -⟩ := h.clauses_eq
  rw [newClauses, hcs, List.drop_left]

theorem Frame.newClauses_append {s t u : State Int} (h : s.Frame t) (h' : t.Frame u) :
    s.newClauses u = s.newClauses t ++ t.newClauses u := by
  have e := (h.trans h').clauses_append
  rw [h'.clauses_append, h.clauses_append, List.append_assoc] at e
  exact (List.append_cancel_left e).symm

/-- The new clauses have indices that were in use and fresh ones. -/
theorem Frame.newClauses_within {s t : State Int} (h : s.Frame t) (hs : s.Sound) :
    Cnf.Within (fun i => i ∈ s.varMap.usedIndices ∨ s.nextVar ≤ i ∧ i < t.nextVar) (s.newClauses t) := by
  obtain ⟨cs, hcs, hl⟩ := h.clauses_eq
  rw [newClauses, hcs, List.drop_left]
  intro c hc l hlc
  obtain ⟨i, hli, hi⟩ := hl c hc l hlc
  have hpos : 0 < i ∧ (i ∈ s.varMap.usedIndices ∨ s.nextVar ≤ i ∧ i < t.nextVar) := by
    rcases hi with hi | ⟨n, h1, h2, e⟩
    · exact ⟨(hs.varMap_sound.indices_between i hi).1, .inl hi⟩
    · have e : i = n := e
      have := hs.nextVar_pos
      exact ⟨by omega, .inr ⟨by omega, by omega⟩⟩
  have e : ((l.natAbs : Nat) : Int) = i := by
    rcases hli with rfl | hli
    · omega
    · have : -i = l := Except.ok.inj hli
      omega
  rw [e]
  exact hpos.2

/-- A state to start in with some guards, while some variables are known to be in scope. -/
structure Ready (s : State Int) (guards : List Literal) (known : Value → Prop) : Prop where
  sound : s.Sound
  assumptions_eq : s.assumptions = guards.map Literal.toValue
  guards_indexed : ∀ g ∈ guards, ∃ i, s.varMap.index g.var = .ok i
  known_indexed : ∀ v, known v → ∃ i, s.varMap.index v = .ok i

/-- The clauses added between two states say that a guard holds or the property does. -/
structure Emits (s t : State Int) (guards : List Literal) (P : Env → Prop) : Prop where
  frame : s.Frame t
  solvable_iff : ∀ σ, Cnf.Solvable s.nextVar t.nextVar σ (s.newClauses t) ↔
    (∃ g ∈ guards, g.Holds (s.varMap.env σ)) ∨ P (s.varMap.env σ)

variable {s t u : State Int} {guards : List Literal} {known : Value → Prop} {P Q : Env → Prop}

theorem Ready.of_frame (h : s.Ready guards known) (hf : s.Frame t) : t.Ready guards known where
  sound := hf.sound h.sound
  assumptions_eq := hf.assumptions_eq.trans h.assumptions_eq
  guards_indexed := by
    rw [hf.varMap_eq]
    exact h.guards_indexed
  known_indexed := by
    rw [hf.varMap_eq]
    exact h.known_indexed

private theorem Emits.refl (s : State Int) (guards : List Literal) : s.Emits s guards fun _ => True where
  frame := Frame.refl s
  solvable_iff σ := by
    rw [Cnf.solvable_self, newClauses, List.drop_length]
    exact ⟨fun _ => .inr trivial, fun _ c hc => by cases hc⟩

private theorem Emits.congr {s' t' : State Int} (h : s.Emits t guards P) (hf : s'.Frame t')
    (hm : s'.varMap = s.varMap) (hn : s'.nextVar = s.nextVar) (hc : s'.clauses = s.clauses)
    (hn' : t'.nextVar = t.nextVar) (hc' : t'.clauses = t.clauses) : s'.Emits t' guards P where
  frame := hf
  solvable_iff := by
    unfold newClauses
    rw [hm, hn, hc, hn', hc']
    exact h.solvable_iff

/-- The clauses added first and those added then are solvable together exactly if each are. -/
theorem Frame.solvable_trans (hs : s.Sound) (h : s.Frame t) (h' : t.Frame u) (σ : Int → Bool) :
    Cnf.Solvable s.nextVar u.nextVar σ (s.newClauses u) ↔
      Cnf.Solvable s.nextVar t.nextVar σ (s.newClauses t) ∧ Cnf.Solvable t.nextVar u.nextVar σ (t.newClauses u) := by
  have hlo := h.nextVar_le
  have hin := hs.varMap_sound.indices_between
  rw [h.newClauses_append h']
  refine Cnf.solvable_append hlo h'.nextVar_le (fun c hc l hl => ?_) fun c hc l hl => ?_
  · rcases h.newClauses_within hs c hc l hl with hi | hi
    · have := hin _ hi
      omega
    · exact hi.2
  · rcases h'.newClauses_within (h.sound hs) c hc l hl with hi | hi
    · rw [h.varMap_eq] at hi
      exact .inl (hin _ hi).2
    · exact .inr hi.1

private theorem Emits.trans (hs : s.Sound) (h : s.Emits t guards P) (h' : t.Emits u guards Q) :
    s.Emits u guards fun ρ => P ρ ∧ Q ρ where
  frame := h.frame.trans h'.frame
  solvable_iff σ := by
    rw [h.frame.solvable_trans hs h'.frame, h.solvable_iff, h'.solvable_iff, h.frame.varMap_eq, ← or_and_left]

end State

/-! ### Encoders with a meaning -/

namespace Encoder

variable {α β ι : Type}

/-- The encoder always succeeds, and its clauses say that the property holds unless some guard does. -/
def Means (e : Encoder Int α) (known : Value → Prop) (P : Env → Prop) : Prop :=
  ∀ s guards, s.Ready guards known → ∃ a t, e.runOn s = .ok a t ∧ s.Emits t guards P

theorem runOn_eq_ok {e : Encoder Int α} {s t : State Int} {a : α} (h : e.step s = .ok a t)
    (hn : s.nextVar ≤ t.nextVar) : e.runOn s = .ok a t :=
  runOn_eq_ok_iff.2 ⟨h, hn⟩

variable {known : Value → Prop} {P Q : Env → Prop}

theorem Means.congr {e : Encoder Int α} (h : e.Means known P) (hpq : ∀ ρ, P ρ ↔ Q ρ) : e.Means known Q := by
  intro s guards hs
  obtain ⟨a, t, hr, he⟩ := h s guards hs
  exact ⟨a, t, hr, he.frame, fun σ => (he.solvable_iff σ).trans (or_congr_right (hpq _))⟩

theorem means_pure (a : α) : (.pure a : Encoder Int α).Means known fun _ => True := by
  intro s guards _
  exact ⟨a, s, runOn_eq_ok rfl (Int.le_refl _), .refl s guards⟩

theorem Means.andThen {e : Encoder Int α} {f : Encoder Int β} (he : e.Means known P) (hf : f.Means known Q) :
    (e.andThen f).Means known fun ρ => P ρ ∧ Q ρ := by
  intro s guards hs
  obtain ⟨a, t, hr, ht⟩ := he s guards hs
  obtain ⟨b, u, hr', hu⟩ := hf t guards (hs.of_frame ht.frame)
  have h := ht.trans hs.sound hu
  refine ⟨b, u, runOn_eq_ok ?_ h.frame.nextVar_le, h⟩
  show EStateM.bind e.runOn (fun _ => f.runOn) s = _
  unfold EStateM.bind
  rw [hr]
  exact hr'

theorem seq_cons_step (e : Encoder Int α) (es : List (Encoder Int α)) (s : State Int) :
    (seq (e :: es)).step s = match e.runOn s with
      | .ok _ t => (seq es).step t
      | .error x t => .error x t := by
  have h := eachChosen_cons_step e es .ok s
  have hc : runChosen (.ok e) s = e.runOn s := rfl
  rw [hc] at h
  cases hr : e.runOn s with
  | ok a t =>
    rw [hr] at h
    exact h
  | error x t =>
    rw [hr] at h
    exact h

/-- A sequence means all that its parts mean. -/
theorem Means.seq {es : List (Encoder Int α)} {Ps : List (Env → Prop)}
    (h : List.Forall₂ (fun e P => e.Means known P) es Ps) : (seq es).Means known fun ρ => ∀ P ∈ Ps, P ρ := by
  intro s guards hs
  have hstep : ∃ t, (Encoder.seq es).step s = .ok () t ∧ s.Emits t guards fun ρ => ∀ P ∈ Ps, P ρ := by
    induction h generalizing s with
    | nil =>
      refine ⟨s, rfl, State.Frame.refl s, fun σ => ((State.Emits.refl s guards).solvable_iff σ).trans ?_⟩
      simp
    | cons he _ ih =>
      obtain ⟨a, t, hr, ht⟩ := he s guards hs
      obtain ⟨u, hu, hrest⟩ := ih t (hs.of_frame ht.frame)
      have hboth := ht.trans hs.sound hrest
      refine ⟨u, ?_, hboth.frame, fun σ => (hboth.solvable_iff σ).trans ?_⟩
      · rw [seq_cons_step, hr]
        exact hu
      · rw [List.forall_mem_cons]
  obtain ⟨t, ht, he⟩ := hstep
  exact ⟨(), t, runOn_eq_ok ht he.frame.nextVar_le, he⟩

theorem Means.each {items : List ι} {f : ι → Encoder Int α} {P : ι → Env → Prop}
    (h : ∀ i ∈ items, (f i).Means known (P i)) : (each items f).Means known fun ρ => ∀ i ∈ items, P i ρ := by
  have hall : List.Forall₂ (fun e P => e.Means known P) (items.map f) (items.map P) := by
    rw [List.forall₂_map_left_iff, List.forall₂_map_right_iff]
    exact List.forall₂_same.2 h
  rw [each_eq_seq]
  exact (Means.seq hall).congr fun ρ => List.forall_mem_map

/-! ### Clauses -/

private theorem signedClause_ready {s : State Int} {guards : List Literal} (hs : s.Ready guards known)
    {c : List Literal} (hc : ∀ l ∈ c, known l.var) :
    ∃ d, s.signedClause c = .ok d ∧
      ∀ σ, (∃ j ∈ d, Cnf.Holds σ j) ↔
        (∃ g ∈ guards, g.Holds (s.varMap.env σ)) ∨ ∃ l ∈ c, l.Holds (s.varMap.env σ) := by
  have hsigned : ∀ l : Literal, (∃ i, s.varMap.index l.var = .ok i) → ∃ j, s.varMap.signedIndex l = .ok j := by
    rintro l ⟨i, hi⟩
    exact ⟨_, VarMap.signedIndex_of_index hi⟩
  obtain ⟨gs, hgs⟩ := exists_forall₂ fun g hg => hsigned g (hs.guards_indexed g hg)
  obtain ⟨js, hjs⟩ := exists_forall₂ fun l hl => hsigned l (hs.known_indexed _ (hc l hl))
  refine ⟨gs ++ js, State.signedClause_eq_ok.2 ⟨gs, js, ?_, hjs, rfl⟩, fun σ => ?_⟩
  · rw [hs.assumptions_eq, List.forall₂_map_left_iff]
    exact hgs.imp fun g j h => ⟨g, Literal.ofValue_toValue g, h⟩
  · have hm := hs.sound.varMap_sound
    simp only [List.mem_append, or_and_right, exists_or, VarMap.exists_holds_iff hm hgs σ,
      VarMap.exists_holds_iff hm hjs σ]

theorem means_require {c : List Literal} (hc : ∀ l ∈ c, known l.var) :
    (require c : Encoder Int Unit).Means known fun ρ => ∃ l ∈ c, l.Holds ρ := by
  intro s guards hs
  obtain ⟨d, hd, hiff⟩ := signedClause_ready hs hc
  have ha : s.addClause c = .ok { s with clauses := s.clauses ++ [d] } := by
    rw [hs.sound.addClause_eq, hd]
    rfl
  refine ⟨(), { s with clauses := s.clauses ++ [d] }, runOn_eq_ok ?_ (Int.le_refl _), State.frame_addClause ha,
    fun σ => ?_⟩
  · unfold require
    dsimp only
    rw [ha]
  · rw [Cnf.solvable_self, ← hiff]
    have e : s.newClauses { s with clauses := s.clauses ++ [d] } = [d] := List.drop_left
    rw [e]
    exact List.forall_mem_singleton

theorem means_requireAll {cs : List (List Literal)} (hcs : ∀ c ∈ cs, ∀ l ∈ c, known l.var) :
    (requireAll cs : Encoder Int Unit).Means known fun ρ => ∀ c ∈ cs, ∃ l ∈ c, l.Holds ρ :=
  Means.each fun c hc => means_require (hcs c hc)

/-! ### Scopes -/

theorem Means.context {e : Encoder Int α} (name : String) (he : e.Means known P) :
    (context name e).Means known P := by
  intro s guards hs
  obtain ⟨j, ho⟩ := s.openContext_eq name
  have hopened : (s.openContext name).Ready guards known := by
    refine ⟨hs.sound.openContext name, ?_, ?_, ?_⟩
    · rw [ho]
      exact hs.assumptions_eq
    · rw [ho]
      exact hs.guards_indexed
    · rw [ho]
      exact hs.known_indexed
  obtain ⟨a, t, hr, ht⟩ := he _ guards hopened
  obtain ⟨k, hu⟩ := t.closeContext.eventIf_eq s.traceContexts
    (.contextLeft (s.openContext name).path t.nextVar t.clauses.length)
  have hframe : s.Frame { t.closeContext with journal := k } :=
    (State.frame_context ht.frame).trans (State.Frame.journal _ k)
  refine ⟨a, { t.closeContext with journal := k }, runOn_eq_ok ?_ hframe.nextVar_le, ?_⟩
  · unfold Encoder.context
    dsimp only
    rw [hr]
    exact congrArg (EStateM.Result.ok a) hu
  · rw [ho] at ht
    exact ht.congr hframe rfl rfl rfl rfl rfl

theorem Means.unlessAny {e : Encoder Int α} {gs : List Literal} (hgs : ∀ g ∈ gs, known g.var) (he : e.Means known P) :
    (unlessAny gs e).Means known fun ρ => (∃ g ∈ gs, g.Holds ρ) ∨ P ρ := by
  intro s guards hs
  have hinner :
      State.Ready { s with assumptions := s.assumptions ++ gs.map Literal.toValue } (guards ++ gs) known := by
    refine ⟨hs.sound.congr rfl rfl rfl, ?_, ?_, hs.known_indexed⟩
    · rw [List.map_append, ← hs.assumptions_eq]
    · intro g hg
      rcases List.mem_append.1 hg with hg | hg
      · exact hs.guards_indexed g hg
      · exact hs.known_indexed _ (hgs g hg)
  obtain ⟨a, t, hr, ht⟩ := he _ _ hinner
  have hframe := State.frame_unlessAny ht.frame
  refine ⟨a, { t with assumptions := s.assumptions }, runOn_eq_ok ?_ hframe.nextVar_le, hframe, fun σ => ?_⟩
  · unfold Encoder.unlessAny
    dsimp only
    rw [hr]
  · refine (ht.solvable_iff σ).trans ?_
    simp only [List.mem_append, or_and_right, exists_or, or_assoc]

theorem Means.ifAll {e : Encoder Int α} {ls : List Literal} (hls : ∀ l ∈ ls, known l.var) (he : e.Means known P) :
    (ifAll ls e).Means known fun ρ => (∃ l ∈ ls, ¬l.Holds ρ) ∨ P ρ := by
  have hneg : ∀ g ∈ ls.map Literal.negate, known g.var := by
    intro g hg
    obtain ⟨l, hl, rfl⟩ := List.mem_map.1 hg
    rw [Literal.var_negate]
    exact hls l hl
  refine (he.unlessAny hneg).congr fun ρ => or_congr_left ?_
  simp only [List.mem_map, exists_exists_and_eq_and, Literal.holds_negate]

/-- The values of the temporaries from `base` on, and the given values elsewhere. -/
private def assign {n : Nat} (base : Int) (b : Fin n → Bool) (σ : Int → Bool) : Int → Bool := fun i =>
  if h : base ≤ i ∧ i < base + n then b ⟨(i - base).toNat, by omega⟩ else σ i

private theorem agreeOff_assign {n : Nat} (base : Int) (b : Fin n → Bool) (σ : Int → Bool) :
    Cnf.AgreeOff base (base + n) σ (assign base b σ) := by
  intro i hi
  exact dif_neg (by omega)

private theorem assign_add {n : Nat} (base : Int) (b : Fin n → Bool) (σ : Int → Bool) (i : Fin n) :
    assign base b σ (base + (i : Nat)) = b i := by
  have hi := i.isLt
  unfold assign
  rw [dif_pos (by omega)]
  congr
  omega

/-- Where the indices of a scope are chosen too, its temporaries are quantified. -/
private theorem solvable_scope {m : VarMap Int} {base hi : Int} {n : Nat} {cs : List (List Int)}
    {guards : List Literal} (hm : m.Sound base) (hhi : base + n ≤ hi)
    (h : ∀ τ, Cnf.Solvable (base + n) hi τ cs ↔
      (∃ g ∈ guards.map Literal.lift, g.Holds ((m.extend base n).env τ)) ∨ P ((m.extend base n).env τ))
    (σ : Int → Bool) :
    Cnf.Solvable base hi σ cs ↔ (∃ g ∈ guards, g.Holds (m.env σ)) ∨ ∃ b : Fin n → Bool, P ((m.env σ).inside b) := by
  have hinside (τ : Int → Bool) (hτ : Cnf.AgreeOff base (base + n) σ τ) :
      (m.extend base n).env τ = (m.env σ).inside fun i : Fin n => τ (base + (i : Nat)) := by
    rw [m.env_extend, hm.env_eq hτ]
  have hguards (τ : Int → Bool) (hτ : Cnf.AgreeOff base (base + n) σ τ) :
      (∃ g ∈ guards.map Literal.lift, g.Holds ((m.extend base n).env τ)) ↔ ∃ g ∈ guards, g.Holds (m.env σ) := by
    simp only [List.mem_map, exists_exists_and_eq_and, hinside τ hτ, Literal.holds_lift]
  have hlo : base ≤ base + n := by omega
  rw [Cnf.solvable_iff_exists hlo hhi]
  constructor
  · rintro ⟨τ, hτ, hs⟩
    rcases (h τ).1 hs with hg | hp
    · exact .inl ((hguards τ hτ).1 hg)
    · rw [hinside τ hτ] at hp
      exact .inr ⟨_, hp⟩
  · rintro (hg | ⟨b, hp⟩)
    · have hσ := Cnf.AgreeOff.refl base (base + n) σ
      exact ⟨σ, hσ, (h σ).2 (.inl ((hguards σ hσ).2 hg))⟩
    · have hτ := agreeOff_assign base b σ
      refine ⟨assign base b σ, hτ, (h _).2 (.inr ?_)⟩
      rw [hinside _ hτ]
      simp only [assign_add]
      exact hp

/-- The body of a scope is carried out over the lifted guards and the temporaries, and what it does the scope does. -/
theorem exists_enter {s : State Int} {guards : List Literal} (hs : s.Ready guards known) (n : Nat) :
    ∃ inner : State Int, inner.Ready (guards.map Literal.lift) (Inside known n) ∧
      inner.varMap = s.varMap.extend s.nextVar n ∧ inner.nextVar = s.nextVar + n ∧ inner.clauses = s.clauses ∧
      ∀ (e : Encoder Int α) a t, e.runOn inner = .ok a t → inner.Frame t →
        ∃ u, (withFresh n e).runOn s = .ok a u ∧ s.Frame u ∧ u.nextVar = t.nextVar ∧ u.clauses = t.clauses := by
  have hvalues : s.assumptions.mapM Literal.ofValue = .ok guards := by
    rw [hs.assumptions_eq, mapM_eq_ok, List.forall₂_map_left_iff]
    exact List.forall₂_same.2 fun g _ => Literal.ofValue_toValue g
  let inner : State Int := { s.takeFresh n with
    varMap := s.varMap.extend s.nextVar n
    assumptions := guards.map fun g => g.lift.toValue }
  have hopen : (s.takeFresh n).enter s.nextVar n = .ok inner := State.enter_eq_ok.2 ⟨guards, hvalues, rfl⟩
  have hinner : inner.Ready (guards.map Literal.lift) (Inside known n) := by
    refine ⟨hs.sound.enter hopen, ?_, fun g hg => ?_, VarMap.index_extend hs.known_indexed s.nextVar n⟩
    · rw [List.map_map]
      rfl
    · obtain ⟨g', hg', rfl⟩ := List.mem_map.1 hg
      exact hs.guards_indexed g' hg'
  refine ⟨inner, hinner, rfl, rfl, rfl, fun e a t hr hf => ?_⟩
  have hle : (s.takeFresh n).nextVar ≤ t.nextVar := hf.nextVar_le
  have hframe := State.frame_leave hopen hf
  have hleave := State.leave_of_le hle
  rw [hleave, endState_ok] at hframe
  refine ⟨_, runOn_eq_ok ?_ hframe.nextVar_le, hframe, rfl, rfl⟩
  unfold Encoder.withFresh
  dsimp only
  rw [hopen]
  dsimp only
  rw [hr]
  dsimp only
  rw [hleave]

theorem Means.withFresh {n : Nat} {e : Encoder Int α} (he : e.Means (Inside known n) P) :
    (withFresh n e).Means known fun ρ => ∃ b : Fin n → Bool, P (ρ.inside b) := by
  intro s guards hs
  obtain ⟨inner, hinner, hmap, hnext, hclauses, hscope⟩ := exists_enter (α := α) hs n
  obtain ⟨a, t, hr, ht⟩ := he inner _ hinner
  obtain ⟨u, hu, hframe, hlast, hadded⟩ := hscope e a t hr ht.frame
  refine ⟨a, u, hu, hframe, ?_⟩
  have hle := ht.frame.nextVar_le
  have hiff := ht.solvable_iff
  rw [hmap, hnext] at hiff
  rw [hnext] at hle
  unfold State.newClauses at hiff ⊢
  rw [hclauses] at hiff
  rw [hlast, hadded]
  exact solvable_scope hs.sound.varMap_sound hle hiff

end Encoder

end Clausify
