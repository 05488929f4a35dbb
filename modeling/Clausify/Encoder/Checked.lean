import Clausify.Encoder.Clause

/-!
# Checked construction

Clients hand over values where literals are expected, and may hand over anything where an encoder is expected. The
constructions here check what they get and fail, at the first thing that is wrong, before any step is carried out.
-/

namespace Clausify

/-- What a client hands over for an encoder: an encoder, or something of another kind. -/
inductive Supplied (I α : Type) where
  | encoder (e : Encoder I α)
  | other (kind : String)

/-- What a client hands over for an encoder that may not be needed. -/
inductive Deferred (I α : Type) where
  | given (e : Supplied I α)
  | delayed (choice : Except Error (Supplied I α))

/-- What a client hands over for the body of a temporary scope. -/
inductive ScopeBody (I α : Type) where
  | given (e : Supplied I α)
  | made (f : Scope → Except Error (Supplied I α))

variable {I α β ι : Type}

/-- What a client builds for an encoder, which may fail. -/
abbrev Construction (I α : Type) := Except Error (Supplied I α)

namespace Construction

/-- An encoder that is handed over once it is built. -/
def made (x : Except Error (Encoder I α)) : Construction I α :=
  x.map .encoder

/-- An encoder that is handed over as it is, or is built only when it is needed. -/
def deferred (late : Bool) (x : Construction I α) : Except Error (Deferred I α) :=
  if late then .ok (.delayed x) else x.map .given

end Construction

/-- The encoder that was handed over. -/
def Supplied.get : Supplied I α → Except Error (Encoder I α)
  | encoder e => .ok e
  | other kind => .error (.notEncoder kind)

/-- The encoder that was handed over, for an operation that only encoders have. -/
def Supplied.receiver : Supplied I α → Except Error (Encoder I α)
  | encoder e => .ok e
  | other _ => .error .noOperation

/-- The encoder that was handed over, now that it is needed. -/
def Deferred.get : Deferred I α → Except Error (Encoder I α)
  | given (.encoder e) => .ok e
  | given (.other kind) => .error (.notDeferred kind)
  | delayed choice => do (← choice).get

/-- The body of a scope. -/
def ScopeBody.get (scope : Scope) : ScopeBody I α → Except Error (Encoder I α)
  | given (.encoder e) => .ok e
  | given (.other kind) => .error (.notScopeBody kind)
  | made f => do (← f scope).get

/-- The number of temporaries that a value asks for. -/
def scopeSize : Value → Except Error Nat
  | .int n => if 0 ≤ n then .ok n.toNat else .error (.scopeSize (.int n))
  | v => .error (.scopeSize v)

namespace Checked

def require [Index I] (clause : List Value) : Except Error (Encoder I Unit) :=
  return .require (← Literal.ofValues clause)

/-- Each clause is checked when it is about to be added. -/
def requireAll [Index I] (clauses : List (List Value)) : Encoder I Unit :=
  .eachChosen clauses require

def context (name : String) (body : Supplied I α) : Except Error (Encoder I α) :=
  return .context name (← body.get)

def unlessAny (guards : List Value) (body : Supplied I α) : Except Error (Encoder I α) := do
  let guards ← Literal.ofValues guards
  return .unlessAny guards (← body.get)

def ifAll (lits : List Value) (body : Supplied I α) : Except Error (Encoder I α) := do
  let lits ← Literal.ofValues lits
  return .ifAll lits (← body.get)

def withFresh (n : Value) (body : ScopeBody I α) : Except Error (Encoder I α) := do
  let n ← scopeSize n
  return .withFresh n (← body.get ⟨n⟩)

def bind (first : Supplied I α) (f : α → Except Error (Supplied I β)) : Except Error (Encoder I β) :=
  return (← first.get).bind fun a => do (← f a).get

def andThen (first : Supplied I α) (second : Supplied I β) : Except Error (Encoder I β) := do
  let first ← first.receiver
  return first.andThen (← second.get)

def map (f : α → β) (e : Supplied I α) : Except Error (Encoder I β) :=
  return (← e.receiver).map f

def seq (es : List (Supplied I α)) : Except Error (Encoder I Unit) :=
  return .seq (← es.mapM Supplied.get)

def eachChosen (items : List ι) (f : ι → Except Error (Supplied I α)) : Encoder I Unit :=
  .eachChosen items fun i => do (← f i).get

def onlyIf (cond : Bool) (body : Deferred I α) : Except Error (Encoder I Unit) :=
  if cond then return (← body.get).map fun _ => () else return .pure ()

def ite (cond : Bool) (yes no : Deferred I α) : Except Error (Encoder I α) :=
  if cond then yes.get else no.get

/-- An encoder that is not one fails when it is carried out. -/
def attempt (e : Supplied I α) : Encoder I (Except Error α) :=
  match e with
  | .encoder e => e.attempt
  | .other _ => .pure (.error .noOperation)

end Checked

end Clausify
