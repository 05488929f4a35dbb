import Clausify.Proofs.Soundness
import Mathlib.Data.List.Infix
import Mathlib.Logic.Function.Iterate

/-!
# The points of a run

A temporary scope runs on a state of its own while those around it wait, so a point of a run (`Program.Visits`) has a
current state and the states of the scopes left open around it.  All of them share the formula, but only the current
one counts: the others take its counter over when the scope inside them ends.

From a sound state a run passes sound states only (`Program.Visits.reached`).  At each level the map is injective
and below the counter of the level, and a literal of the level where the run started, lifted as often as scopes were
opened, has the index that it has there (`signedIndex_lift`).
-/

namespace Clausify

variable {I α β ι : Type}

/-- A waiting state at a point where `top` is the current one: formula, contexts and journal are common to both. -/
def State.sharing (s top : State I) : State I :=
  { s with clauses := top.clauses, contexts := top.contexts, journal := top.journal }

namespace Program

variable [Index I]

/-- The points of a run of a program from a state: the waiting states, the outermost first, and the current one. -/
inductive Visits : {α : Type} → Program α → State I → List (State I) → State I → Prop where
  | start {α : Type} (p : Program α) (s : State I) : Visits p s [] s
  | stop {α : Type} (p : Program α) (s : State I) : Visits p s [] (p.encoder.after s)
  | bindFirst {α β : Type} {p : Program α} {f : α → Program β} {s top : State I} {outer : List (State I)} :
      Visits p s outer top → Visits (bind p f) s outer top
  | bindNext {α β : Type} {p : Program α} {f : α → Program β} {s t top : State I} {outer : List (State I)} {a : α} :
      p.encoder.runOn s = .ok a t → Visits (f a) t outer top → Visits (bind p f) s outer top
  | eachFirst {ι α : Type} {i : ι} {is : List ι} {f : ι → Program α} {s top : State I} {outer : List (State I)} :
      Visits (f i) s outer top → Visits (each (i :: is) f) s outer top
  | eachNext {ι α : Type} {i : ι} {is : List ι} {f : ι → Program α} {s t top : State I} {outer : List (State I)}
      {a : α} :
      (f i).encoder.runOn s = .ok a t → Visits (each is f) t outer top → Visits (each (i :: is) f) s outer top
  | context {α : Type} {name : String} {p : Program α} {s top : State I} {outer : List (State I)} :
      Visits p (s.openContext name) outer top → Visits (context name p) s outer top
  | unlessAny {α : Type} {guards : List Literal} {p : Program α} {s top : State I} {outer : List (State I)} :
      Visits p { s with assumptions := s.assumptions ++ guards.map Literal.toValue } outer top →
        Visits (unlessAny guards p) s outer top
  /-- The temporaries are taken, but the scope is not open yet. -/
  | taken {α : Type} (n : Nat) (p : Program α) (s : State I) : Visits (withFresh n p) s [] (s.takeFresh n)
  | withFresh {α : Type} {n : Nat} {p : Program α} {s inner top : State I} {outer : List (State I)} :
      (s.takeFresh n).enter s.nextVar n = .ok inner → Visits p inner outer top →
        Visits (withFresh n p) s ((s.takeFresh n).sharing top :: outer) top
  | attempt {α : Type} {p : Program α} {s top : State I} {outer : List (State I)} :
      Visits p s outer top → Visits (attempt p) s outer top

end Program

/-! ### Ranges since a state -/

namespace State

/-- The ranges of temporaries recorded between two states. -/
def rangesSince (s t : State I) : List TempRange :=
  t.journal.ranges.drop s.journal.ranges.length

private theorem Allocates.ranges_eq {s t : State I} (h : s.Allocates t) :
    t.journal.ranges = s.journal.ranges ++ s.rangesSince t := by
  obtain ⟨rs, hrs, -⟩ := h
  rw [rangesSince, hrs, List.drop_left]

theorem Allocates.tiles {s t : State I} (h : s.Allocates t) : Tiles s.nextVar t.nextVar (s.rangesSince t) := by
  obtain ⟨rs, hrs, ht⟩ := h
  rw [rangesSince, hrs, List.drop_left]
  exact ht

private theorem Allocates.nextVar_le {s t : State I} (h : s.Allocates t) : s.nextVar ≤ t.nextVar := h.tiles.le

private theorem Allocates.rangesSince_subset {s t : State I} (h : s.Allocates t) (u : State I) :
    t.rangesSince u ⊆ s.rangesSince u := by
  refine List.drop_subset_drop_left _ ?_
  rw [h.ranges_eq, List.length_append]
  omega

theorem Later.rangesSince_subset {t u : State I} (h : t.Later u) (s : State I) : s.rangesSince t ⊆ s.rangesSince u :=
  (List.IsPrefix.drop h.ranges _).subset

end State

/-! ### Levels -/

/-- The state `u` at a level, with `d` scopes open around it since `s`, at a point where `top` is the current one. -/
structure Level (s top : State Int) (d : Nat) (u : State Int) : Prop where
  clauses_eq : u.clauses = top.clauses
  nextVar_le : u.nextVar ≤ top.nextVar
  varMap_sound : u.varMap.Sound u.nextVar
  varMap_eq : ∃ rs, u.varMap = ⟨s.varMap.named, rs ++ s.varMap.scopes⟩ ∧ rs.length = d ∧ rs ⊆ s.rangesSince top

namespace Level

variable {s t top u : State Int} {d : Nat}

/-- A level since a later state is one since the state before. -/
private theorem of_step (hv : t.varMap = s.varMap) (ha : s.Allocates t) (h : Level t top d u) : Level s top d u := by
  obtain ⟨rs, hu, hd, hrs⟩ := h.varMap_eq
  rw [hv] at hu
  exact { h with varMap_eq := ⟨rs, hu, hd, List.Subset.trans hrs (ha.rangesSince_subset top)⟩ }

/-- A level inside a scope is one further inside for the state outside. -/
private theorem of_enter {inner : State Int} {n : Nat} (he : (s.takeFresh n).enter s.nextVar n = .ok inner)
    (ha : inner.Allocates top) (h : Level inner top d u) : Level s top (d + 1) u := by
  obtain ⟨gs, -, rfl⟩ := State.enter_eq_ok.1 he
  have htop : s.Allocates top := (s.allocates_takeFresh n).trans ha
  obtain ⟨rs, hu, hd, hrs⟩ := h.varMap_eq
  refine { h with varMap_eq := ⟨rs ++ [⟨s.nextVar, n⟩], ?_, by rw [List.length_append, hd]; rfl, ?_⟩ }
  · rw [hu, List.append_assoc]
    rfl
  · rw [List.append_subset]
    refine ⟨List.Subset.trans hrs ((s.allocates_takeFresh n).rangesSince_subset top), ?_⟩
    intro r hr
    have e : (s.takeFresh n).journal.ranges = s.journal.ranges ++ [⟨s.nextVar, n⟩] := by
      show ((s.journal.event _).notice _).ranges = _
      rw [Journal.ranges_notice, Journal.ranges_event]
      rfl
    have e' : top.journal.ranges = (s.takeFresh n).journal.ranges ++ (s.takeFresh n).rangesSince top := ha.ranges_eq
    rw [State.rangesSince, e', e, List.append_assoc, List.drop_left]
    exact List.mem_append_left _ hr

end Level

/-! ### What holds at each point -/

/-- A point that is reached from a sound state. -/
structure Reached (s : State Int) (outer : List (State Int)) (top : State Int) : Prop where
  sound : top.Sound
  allocates : s.Allocates top
  level : ∀ d u, (outer ++ [top])[d]? = some u → Level s top d u

namespace Reached

variable {s t top : State Int} {outer : List (State Int)}

/-- A point without open scopes. -/
private theorem single (hv : t.varMap = s.varMap) (ht : t.Sound) (ha : s.Allocates t) : Reached s [] t where
  sound := ht
  allocates := ha
  level d u hu := by
    cases d with
    | zero =>
      cases hu
      exact ⟨rfl, Int.le_refl _, ht.varMap_sound, [], hv, rfl, List.nil_subset _⟩
    | succ d => cases hu

private theorem of_step (hv : t.varMap = s.varMap) (ha : s.Allocates t) (h : Reached t outer top) :
    Reached s outer top :=
  ⟨h.sound, ha.trans h.allocates, fun d u hu => (h.level d u hu).of_step hv ha⟩

private theorem of_enter {inner : State Int} {n : Nat} (hs : s.Sound)
    (he : (s.takeFresh n).enter s.nextVar n = .ok inner) (h : Reached inner outer top) :
    Reached s ((s.takeFresh n).sharing top :: outer) top := by
  have he' := he
  obtain ⟨gs, -, rfl⟩ := State.enter_eq_ok.1 he'
  have ha : (s.takeFresh n).Allocates top := h.allocates
  refine ⟨h.sound, (s.allocates_takeFresh n).trans ha, fun d u hu => ?_⟩
  cases d with
  | zero =>
    cases hu
    have ht := ((State.frame_takeFresh s n).sound hs).varMap_sound
    exact ⟨rfl, ha.nextVar_le, ht, [], rfl, rfl, List.nil_subset _⟩
  | succ d => exact (h.level d u hu).of_enter he h.allocates

end Reached

namespace Program.Visits

theorem reached {p : Program α} {s top : State Int} {outer : List (State Int)} (h : p.Visits s outer top)
    (hs : s.Sound) : Reached s outer top := by
  induction h with
  | start p s => exact .single rfl hs (closed_allocates.refl s)
  | stop p s =>
    have hf := closed_frame.rel_after p s
    exact .single hf.varMap_eq (hf.sound hs) (closed_allocates.rel_after p s)
  | bindFirst _ ih => exact ih hs
  | bindNext hr _ ih =>
    have hf := closed_frame.rel_of_ok hr
    exact (ih (hf.sound hs)).of_step hf.varMap_eq (closed_allocates.rel_of_ok hr)
  | eachFirst _ ih => exact ih hs
  | eachNext hr _ ih =>
    have hf := closed_frame.rel_of_ok hr
    exact (ih (hf.sound hs)).of_step hf.varMap_eq (closed_allocates.rel_of_ok hr)
  | @context _ name p s _ _ _ ih =>
    have ha : s.Allocates (s.openContext name) := .of_eq (s.ranges_openContext name) (s.nextVar_openContext name)
    obtain ⟨j, e⟩ := s.openContext_eq name
    exact (ih (hs.openContext name)).of_step (by rw [e]) ha
  | @unlessAny _ guards p s _ _ _ ih =>
    have h := ih (hs.congr rfl rfl rfl)
    refine Reached.of_step (s := s) ?_ ?_ h
    · rfl
    · exact .of_eq rfl rfl
  | taken n p s => exact .single rfl ((State.frame_takeFresh s n).sound hs) (s.allocates_takeFresh n)
  | withFresh he _ ih => exact (ih (hs.enter he)).of_enter hs he
  | attempt _ ih => exact ih hs

end Program.Visits

/-! ### What is still to come -/

namespace Program

variable [Index I]

private theorem later_bind (p : Program α) (f : α → Program β) (s : State I) :
    (p.encoder.after s).Later ((bind p f).encoder.after s) := by
  cases hr : p.encoder.runOn s with
  | ok a t =>
    rw [Encoder.after_of_ok hr, bind_after_of_ok hr]
    exact closed_later.rel_after (f a) t
  | error x t =>
    rw [Encoder.after_of_error hr, bind_after_of_error hr]
    exact closed_later.refl t

private theorem later_each (i : ι) (is : List ι) (f : ι → Program α) (s : State I) :
    ((f i).encoder.after s).Later ((each (i :: is) f).encoder.after s) := by
  cases hr : (f i).encoder.runOn s with
  | ok a t =>
    rw [Encoder.after_of_ok hr, each_after_of_ok hr]
    exact closed_later.rel_after (each is f) t
  | error x t =>
    rw [Encoder.after_of_error hr, each_after_of_error hr]
    exact closed_later.refl t

private theorem later_context (name : String) (p : Program α) (s : State I) :
    (p.encoder.after (s.openContext name)).Later ((context name p).encoder.after s) := by
  rcases Encoder.context_after name p.encoder s with e | ⟨path, e⟩
  · rw [encoder, e]
    exact closed_later.refl (p.encoder.after (s.openContext name))
  · rw [encoder, e]
    exact closed_later.contextLeft _ path

private theorem later_withFresh (n : Nat) (p : Program α) (s : State I) :
    (s.takeFresh n).Later ((withFresh n p).encoder.after s) := by
  cases he : (s.takeFresh n).enter s.nextVar n with
  | error x =>
    rw [encoder, Encoder.withFresh_after_of_error he]
    exact closed_later.refl _
  | ok inner =>
    rw [encoder, Encoder.withFresh_after he]
    have h : inner.Later (p.encoder.after inner) := closed_later.rel_after p inner
    unfold State.Later at h ⊢
    rw [State.journal_leave, ← State.journal_enter he]
    exact h

/-- What is recorded at a point of a run is still recorded at its end. -/
theorem Visits.later {p : Program α} {s top : State I} {outer : List (State I)} (h : p.Visits s outer top) :
    top.Later (p.encoder.after s) := by
  induction h with
  | start p s => exact closed_later.rel_after p s
  | stop p s => exact closed_later.refl _
  | bindFirst _ ih => exact closed_later.trans ih (later_bind _ _ _)
  | bindNext hr _ ih =>
    rw [bind_after_of_ok hr]
    exact ih
  | eachFirst _ ih => exact closed_later.trans ih (later_each _ _ _ _)
  | eachNext hr _ ih =>
    rw [each_after_of_ok hr]
    exact ih
  | context _ ih => exact closed_later.trans ih (later_context _ _ _)
  | unlessAny _ ih =>
    rw [encoder, Encoder.unlessAny_after]
    exact ih
  | taken n p s => exact later_withFresh n p s
  | withFresh he _ ih =>
    rw [encoder, Encoder.withFresh_after he]
    unfold State.Later
    rw [State.journal_leave]
    exact ih
  | attempt _ ih =>
    rw [encoder, Encoder.attempt_after]
    exact ih

end Program

end Clausify
