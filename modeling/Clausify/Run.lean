import Clausify.Config.Basic
import Clausify.Encoder.Checked
import Clausify.Result.Basic

/-!
# Runs

A run carries out an encoder on the variables of a universe, from an empty formula to its result.
-/

namespace Clausify

variable {I α : Type}

/-- What is checked when the encoder is done: the invariants if asked to, and that no scope is open. -/
def State.checkFinished [Index I] (s : State I) (invariants : Bool) : Except Error Unit := do
  if invariants then s.check
  if !(s.assumptions.isEmpty && s.contexts.isEmpty) then throw .scopesOpen

/-- Records the end of a run over `named` variables. -/
def State.finished (s : State I) (named : Int) : Journal :=
  let auxiliary := s.nextVar - 1 - named
  (s.journal.notice (.encodingFinished s.clauses.length named auxiliary)).event
    (.encodingFinished s.clauses.length named auxiliary)

variable [Index I]

/-- Carries out an encoder in a state at the start of a run. -/
def Encoder.runFrom (e : Encoder I α) (s : State I) : EStateM.Result Error Journal (Result I α) :=
  match e.runOn s with
  | .error x t => .error x t.journal
  | .ok a t =>
    match t.checkFinished s.checkInvariants with
    | .error x => .error x t.journal
    | .ok () => .ok ⟨a, t.clauses, t.varMap.named, t.nextVar - 1⟩ (t.finished (s.nextVar - 1))

/-- Carries out an encoder on a universe. -/
def run (vars : List Value) (encoder : Supplied I α) (embedding : Option (Table Value)) (config : Config) :
    Journaled (Result I α) := do
  let varMap ← Journaled.ofExcept (VarMap.ofUniverse vars embedding)
  let e ← Journaled.ofExcept encoder.get
  fun j => e.runFrom (.initial varMap config.checkInvariants config.traceContexts j)

end Clausify
