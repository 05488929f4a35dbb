import Clausify.State

/-!
# Encoders

An encoder is a step of a run: it changes the state and returns a value or fails. `Encoder.runOn` carries it out;
a step that sets the next free index back fails afterwards. Encoders are composed one after the other by `bind`,
`andThen`, `seq` and `eachChosen`; where a part is chosen late, choosing it may itself fail.
-/

namespace Clausify

/-- A step of a run. -/
structure Encoder (I α : Type) where
  step : EStateM Error (State I) α

namespace Encoder

variable {I α β ι : Type}

/-- Carries out an encoder. -/
def runOn (e : Encoder I α) : EStateM Error (State I) α := fun s =>
  match e.step s with
  | .ok a t =>
    if t.nextVar < s.nextVar then .error (.counterDecreased s.nextVar t.nextVar) t else .ok a t
  | .error x t => .error x t

/-- Carries out an encoder that was chosen during the run. -/
def runChosen (choice : Except Error (Encoder I α)) : EStateM Error (State I) α := fun s =>
  match choice with
  | .ok e => e.runOn s
  | .error x => .error x (s.warn x)

/-- Does nothing. -/
protected def pure (a : α) : Encoder I α := ⟨pure a⟩

/-- Goes on with an encoder chosen by the value of the first. -/
protected def bind (e : Encoder I α) (f : α → Except Error (Encoder I β)) : Encoder I β :=
  ⟨do runChosen (f (← e.runOn))⟩

protected def map (f : α → β) (e : Encoder I α) : Encoder I β :=
  ⟨do return f (← e.runOn)⟩

/-- Two encoders in order, with the value of the second. -/
def andThen (e : Encoder I α) (f : Encoder I β) : Encoder I β :=
  ⟨do let _ ← e.runOn; f.runOn⟩

/-- All encoders in order. -/
def seq (es : List (Encoder I α)) : Encoder I Unit :=
  ⟨es.forM fun e => do let _ ← e.runOn⟩

/-- For each item in order the encoder chosen by it. -/
def eachChosen (items : List ι) (f : ι → Except Error (Encoder I α)) : Encoder I Unit :=
  ⟨items.forM fun i => do let _ ← runChosen (f i)⟩

/-- For each item in order its encoder. -/
def each (items : List ι) (f : ι → Encoder I α) : Encoder I Unit :=
  eachChosen items fun i => .ok (f i)

/-- The encoder if the condition holds, else nothing. -/
def onlyIf (cond : Bool) (e : Encoder I α) : Encoder I Unit :=
  if cond then e.map fun _ => () else .pure ()

/-- Shows the state as it is here. -/
def snapshot : Encoder I Snapshot :=
  ⟨do return (← get).snapshot⟩

/-- Turns a failure into a value. What the encoder did before it failed stays done. -/
def attempt (e : Encoder I α) : Encoder I (Except Error α) where
  step s := match e.runOn s with
    | .ok a t => .ok (.ok a) t
    | .error x t => .ok (.error x) t

/-- Changes the state at will. -/
def modify (f : State I → State I) : Encoder I Unit :=
  ⟨fun s => .ok () (f s)⟩

/-- Fails unless the state is sound. -/
def check [Index I] : Encoder I Unit where
  step s := match s.check with
    | .ok () => .ok () s
    | .error x => .error x s

end Encoder

end Clausify
