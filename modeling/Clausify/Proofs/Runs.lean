import Clausify.Proofs.Soundness
import Clausify.Run

/-!
# Runs that succeed

A run on a universe that is accepted is the encoder carried out from the initial state (`run_of_universe`), and it
succeeds only on such (`run_eq_ok`).  What is checked at its end holds as soon as the encoder leaves the scopes as
they were, so the run succeeds if the encoder does (`Encoder.runFrom_of_ok`).  A result is what the final state has
when it passes the check (`Encoder.runFrom_eq_ok`).
-/

namespace Clausify

variable {α : Type}

theorem run_of_universe {vars : List Value} {embedding : Option (Table Value)} {m : VarMap Int}
    (h : VarMap.ofUniverse vars embedding = .ok m) (e : Encoder Int α) (config : Config) (j : Journal) :
    run vars (.encoder e) embedding config j =
      e.runFrom (.initial m config.checkInvariants config.traceContexts j) := by
  unfold run
  rw [h]
  rfl

theorem run_eq_ok {vars : List Value} {e : Encoder Int α} {embedding : Option (Table Value)} {config : Config}
    {j j' : Journal} {r : Result Int α} :
    run vars (.encoder e) embedding config j = .ok r j' ↔ ∃ m, VarMap.ofUniverse vars embedding = .ok m ∧
      e.runFrom (.initial m config.checkInvariants config.traceContexts j) = .ok r j' := by
  constructor
  · intro h
    cases hm : VarMap.ofUniverse (I := Int) vars embedding with
    | error x =>
      unfold run at h
      rw [hm] at h
      cases h
    | ok m =>
      rw [run_of_universe hm] at h
      exact ⟨m, rfl, h⟩
  · rintro ⟨m, hm, h⟩
    rw [run_of_universe hm]
    exact h

theorem Encoder.runFrom_eq_ok {e : Encoder Int α} {s : State Int} {r : Result Int α} {j : Journal} :
    e.runFrom s = .ok r j ↔ ∃ t, e.runOn s = .ok r.value t ∧ t.checkFinished s.checkInvariants = .ok () ∧
      r = ⟨r.value, t.clauses, t.varMap.named, t.nextVar - 1⟩ ∧ j = t.finished (s.nextVar - 1) := by
  unfold runFrom
  constructor
  · intro h
    split at h
    · cases h
    · rename_i a t hr
      split at h
      · cases h
      · rename_i hc
        cases h
        exact ⟨t, hr, hc, rfl, rfl⟩
  · rintro ⟨t, hr, hc, h, rfl⟩
    rw [hr]
    dsimp only
    rw [hc, h]

theorem State.Sound.checkFinished_eq {s : State Int} (h : s.Sound) (b : Bool) :
    s.checkFinished b = s.checkFinished false := by
  cases b with
  | false => rfl
  | true =>
    unfold State.checkFinished
    rw [if_pos rfl, (State.check_eq_ok_iff h.nextVar_pos).2 h]
    rfl

/-- The run from a sound state outside of all scopes succeeds if the encoder does. -/
theorem Encoder.runFrom_of_ok {e : Encoder Int α} {s t : State Int} {a : α} (h : e.runOn s = .ok a t) (hf : s.Frame t)
    (hs : s.Sound) (ha : s.assumptions = []) (hc : s.contexts = []) :
    e.runFrom s = .ok ⟨a, t.clauses, s.varMap.named, t.nextVar - 1⟩ (t.finished (s.nextVar - 1)) := by
  have hfin : t.checkFinished s.checkInvariants = .ok () := by
    rw [(hf.sound hs).checkFinished_eq]
    unfold State.checkFinished
    rw [hf.assumptions_eq, hf.contexts_eq, ha, hc]
    rfl
  exact runFrom_eq_ok.2 ⟨t, h, hfin, by rw [hf.varMap_eq], rfl⟩

end Clausify
