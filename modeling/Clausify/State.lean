import Clausify.Journal
import Clausify.VarMap

/-!
# States

The state of a run holds the formula so far and the next free index, and what the scopes that are open around the
next clause contribute: the variable map, the assumptions and the names of the contexts. In a sound state every
literal of the formula and every index in use is below the next free index; `State.check` decides this.
-/

namespace Clausify

/-- The state of a run. -/
structure State (I : Type) where
  /-- The next free index. -/
  nextVar : Int
  clauses : List (List I)
  varMap : VarMap I
  /-- The literals that are part of every clause emitted next. -/
  assumptions : List Value
  /-- The names of the open contexts, the outermost first. -/
  contexts : List String
  checkInvariants : Bool
  traceContexts : Bool
  journal : Journal

/-- What a client may see of a state. -/
structure Snapshot where
  nextVar : Int
  numClauses : Nat
  assumptions : List Value
  contexts : List String
deriving DecidableEq

/-- A snapshot as a value. -/
def Snapshot.toValue (s : Snapshot) : Value :=
  .snapshot s.nextVar s.numClauses s.assumptions s.contexts

namespace State

variable {I : Type}

/-- The state in which a run over variables starts. -/
def initial (varMap : VarMap I) (checkInvariants traceContexts : Bool) (journal : Journal) : State I where
  nextVar := varMap.named.size + 1
  clauses := []
  varMap := varMap
  assumptions := []
  contexts := []
  checkInvariants := checkInvariants
  traceContexts := traceContexts
  journal := journal

def snapshot (s : State I) : Snapshot :=
  ⟨s.nextVar, s.clauses.length, s.assumptions, s.contexts⟩

/-- The path of the open contexts. -/
def path (s : State I) : String :=
  "/".intercalate s.contexts

def event (s : State I) (e : Event) : State I :=
  { s with journal := s.journal.event e }

def notice (s : State I) (n : Notice) : State I :=
  { s with journal := s.journal.notice n }

/-- Records the warning that goes with an error. -/
def warn (s : State I) (x : Error) : State I :=
  { s with journal := s.journal.warn x }

/-! ### Clauses -/

section

variable [Index I]

/-- Fails at the first literal whose index is not allocated. -/
def checkAllocated (s : State I) (clause : List I) : Except Error Unit :=
  clause.forM fun l => do
    if ← Index.reaches s.nextVar l then throw (.unallocated (Index.toValue l) s.nextVar)

/-- The assumptions and the literals of a clause as signed indices. -/
def signedClause (s : State I) (clause : List Literal) : Except Error (List I) := do
  let guards ← s.assumptions.mapM fun v => do s.varMap.signedIndex (← Literal.ofValue v)
  let lits ← clause.mapM s.varMap.signedIndex
  return guards ++ lits

/-- Adds a clause, which holds as soon as one of the assumptions does. -/
def addClause (s : State I) (clause : List Literal) : Except Error (State I) := do
  let c ← s.signedClause clause
  if s.checkInvariants then s.checkAllocated c
  return { s with clauses := s.clauses ++ [c] }

end

/-! ### Contexts -/

/-- Records an event if asked to. -/
def eventIf (s : State I) (record : Bool) (e : Event) : State I :=
  if record then s.event e else s

/-- Opens one more context. -/
def openContext (s : State I) (name : String) : State I :=
  let t := { s with contexts := s.contexts ++ [name] }
  (t.notice (.contextEntered t.path)).eventIf s.traceContexts (.contextEntered t.path t.nextVar t.clauses.length)

/-- Closes the innermost context. -/
def closeContext (s : State I) : State I :=
  { s with contexts := s.contexts.dropLast }

/-! ### Temporary scopes -/

/-- Takes the next `n` indices. -/
def reserve (s : State I) (n : Nat) : State I :=
  { s with nextVar := s.nextVar + n }

/-- Takes the next `n` indices for temporaries and records it. -/
def takeFresh (s : State I) (n : Nat) : State I :=
  ((s.reserve n).event (.temporariesAllocated s.nextVar n s.path)).notice (.temporariesAllocated n s.nextVar)

/-- The state inside a scope of `n` temporaries from `base` on. -/
def enter (s : State I) (base : Int) (n : Nat) : Except Error (State I) := do
  let embedded ← s.assumptions.mapM fun v => return (← Literal.embed v).toValue
  return { s with varMap := s.varMap.extend base n, assumptions := embedded }

/-- The assumptions are lifted with the scope. -/
theorem enter_eq (s : State I) (base : Int) (n : Nat) : s.enter base n = (do
    let lifted ← s.assumptions.mapM fun v => return (← Literal.ofValue v).lift.toValue
    return { s with varMap := s.varMap.extend base n, assumptions := lifted }) := by
  have hembed (v : Value) : (do return (← Literal.embed v).toValue : Except Error Value) =
      (do return (← Literal.ofValue v).lift.toValue) := by
    rw [Literal.embed_eq]
    cases Literal.ofValue v <;> rfl
  unfold enter
  simp only [hembed]

/-- Returns from a scope to the state outside. The formula, the contexts and the journal are common to both; the
next free index is taken over unless it fell. -/
def leave (s inner : State I) : EStateM.Result Error (State I) Unit :=
  let t := { s with clauses := inner.clauses, contexts := inner.contexts, journal := inner.journal }
  if inner.nextVar < s.nextVar then .error (.scopeMovedBack s.nextVar inner.nextVar) t
  else .ok () { t with nextVar := inner.nextVar }

/-! ### Invariants -/

variable [Index I]

/-- Fails at the first index in use that is not among the allocated ones. -/
def checkIndices (s : State I) : Except Error Unit :=
  s.varMap.usedIndices.forM fun i => do
    if !(← Index.isBetween s.nextVar i) then throw (.indexOutOfRange (Index.toValue i) s.nextVar)

/-- Whether a literal is zero or not allocated. -/
def isStray (s : State I) (l : I) : Except Error Bool :=
  if Index.isZero l then .ok true else Index.reaches s.nextVar l

/-- Fails at the first literal of the formula that is zero or not allocated. -/
def checkLiterals (s : State I) : Except Error Unit :=
  s.clauses.zipIdx.forM fun (c, i) => c.forM fun l => do
    if ← s.isStray l then throw (.literalOutOfRange i (Index.toValue l) s.nextVar)

/-- Fails unless the variable map is injective and all indices and literals are allocated. -/
def check (s : State I) : Except Error Unit := do
  s.varMap.checkInjective
  s.checkIndices
  s.checkLiterals

end State

end Clausify
