import Clausify.Error

/-!
# Journals

A journal is the record of a run. Its events describe how the formula came about, its notices are the log.
-/

namespace Clausify

/-- A step of a run. -/
inductive Event where
  | constraintTaken (index : Nat) (kind : String)
  | contextEntered (path : String) (nextVar : Int) (clauses : Nat)
  | contextLeft (path : String) (nextVar : Int) (clauses : Nat)
  | temporariesAllocated (base : Int) (count : Nat) (path : String)
  | encodingFinished (clauses : Nat) (named auxiliary : Int)
deriving DecidableEq

/-- Events and notices, in the order in which they arose. -/
structure Journal where
  events : List Event
  notices : List Notice
deriving DecidableEq

namespace Journal

def empty : Journal := ⟨[], []⟩

/-- Records an event. -/
def event (j : Journal) (e : Event) : Journal :=
  { j with events := j.events ++ [e] }

/-- Records a notice. -/
def notice (j : Journal) (n : Notice) : Journal :=
  { j with notices := j.notices ++ [n] }

/-- Records the warning that goes with an error. -/
def warn (j : Journal) (x : Error) : Journal :=
  match x.warning? with
  | some n => j.notice n
  | none => j

end Journal

/-- A computation that keeps a journal. -/
abbrev Journaled := EStateM Error Journal

/-- Takes over a result; its error is entered in the journal. -/
def Journaled.ofExcept {α : Type} (r : Except Error α) : Journaled α := fun j =>
  match r with
  | .ok a => .ok a j
  | .error x => .error x (j.warn x)

end Clausify
