import Clausify.Encoder.Basic

/-!
# Scopes

A scope surrounds the clauses of its body: a context gives them a name, guards let them hold as soon as a guard
does, and a temporary scope extends the variables of its body by fresh ones. Whether the body succeeds or fails,
the scope is closed behind it.
-/

namespace Clausify

/-- The temporaries of a scope, as its body sees them. -/
structure Scope where
  size : Nat
deriving DecidableEq

namespace Scope

/-- The temporary with an index. -/
def get (s : Scope) (i : Int) : Except Error Literal :=
  if 0 ≤ i ∧ i < s.size then .ok (.temp i true) else .error (.noTemporary i s.size)

/-- The number of temporaries, which is given out only if it has at most 63 bits. -/
def length (s : Scope) : Except Error Nat :=
  if s.size < 0x8000000000000000 then .ok s.size else .error .numberTooLarge

/-- All temporaries. -/
def temps (s : Scope) : List Literal :=
  (List.range s.size).map fun (i : Nat) => .temp i true

end Scope

namespace Encoder

variable {I α : Type}

/-- The encoder under a name. -/
def context (name : String) (e : Encoder I α) : Encoder I α where
  step s :=
    let opened := s.openContext name
    match e.runOn opened with
    | .ok a t => .ok a (t.closeContext.eventIf s.traceContexts (.contextLeft opened.path t.nextVar t.clauses.length))
    | .error x t => .error x t.closeContext

/-- The encoder with guards: its clauses hold as soon as a guard does. -/
def unlessAny (guards : List Literal) (e : Encoder I α) : Encoder I α where
  step s :=
    match e.runOn { s with assumptions := s.assumptions ++ guards.map Literal.toValue } with
    | .ok a t => .ok a { t with assumptions := s.assumptions }
    | .error x t => .error x { t with assumptions := s.assumptions }

/-- The encoder under hypotheses: its clauses bind only where all of them hold. -/
def ifAll (lits : List Literal) (e : Encoder I α) : Encoder I α :=
  unlessAny (lits.map Literal.negate) e

/-- The encoder over the variables outside, which it sees as `outer`, and `n` fresh temporaries. Their indices
stay taken for the rest of the run. -/
def withFresh (n : Nat) (e : Encoder I α) : Encoder I α where
  step s :=
    let taken := s.takeFresh n
    match taken.enter s.nextVar n with
    | .error x => .error x taken
    | .ok inner =>
      match e.runOn inner with
      | .ok a t => match taken.leave t with
        | .ok _ u => .ok a u
        | .error x u => .error x u
      | .error x t => match taken.leave t with
        | .ok _ u => .error x u
        | .error y u => .error y u

end Encoder

end Clausify
