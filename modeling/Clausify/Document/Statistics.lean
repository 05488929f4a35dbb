import Clausify.Document.Basic
import Clausify.Error

/-!
# Statistics of documents

The occurrences of literals are counted in words of 64 bits, one word for each variable. `Document.checkCountable`
fails where this is not possible.
-/

namespace Clausify

/-- Size and shape of a formula. -/
structure Statistics where
  numVars : Nat
  /-- The number of variables that were named by a client. -/
  numNamed : Int
  numAuxiliary : Int
  numClauses : Nat
  /-- The number of clauses with one literal. -/
  numUnits : Nat
  numEmpty : Nat
  minLength : Nat
  meanLength : Float
  maxLength : Nat
  /-- The share of positive literals, one half if there are none. -/
  positiveShare : Float
  /-- The number of variables that occur in no clause. -/
  numUnused : Nat

namespace Document

/-- The lengths of the clauses. -/
def lengths (d : Document) : List Nat :=
  d.clauses.map List.length

/-- The variables that occur, each once. -/
def usedVars (d : Document) : List Nat :=
  (d.clauses.flatten.map Int.natAbs).eraseDups

/-- Whether a number is one of 64 bits. -/
def isWord (n : Int) : Bool :=
  -0x8000000000000000 ≤ n && n < 0x8000000000000000

/-- Fails if a literal or the number of variables has no word, or if so many words cannot be addressed. -/
def checkCountable (d : Document) : Except Error Unit :=
  let numVars : Int := d.numVars
  if !d.clauses.flatten.all isWord then .error .numberTooLarge
  else if !(d.clauses.flatten.isEmpty || isWord (numVars + 1)) then .error .numberTooLarge
  else if 0x1000000000000000 ≤ numVars then .error .tooManyVariables
  else .ok ()

/-- The statistics of a document of which so many variables are named. -/
def statistics (d : Document) (numNamed : Int) : Statistics where
  numVars := d.numVars
  numNamed := numNamed
  numAuxiliary := max (d.numVars - numNamed) 0
  numClauses := d.clauses.length
  numUnits := d.lengths.count 1
  numEmpty := d.lengths.count 0
  minLength := d.lengths.min?.getD 0
  meanLength :=
    if d.clauses.isEmpty then 0 else Float.ofNat d.clauses.flatten.length / Float.ofNat d.clauses.length
  maxLength := d.lengths.max?.getD 0
  positiveShare :=
    let lits := d.clauses.flatten
    if lits.isEmpty then 0.5 else Float.ofNat (lits.countP (0 < ·)) / Float.ofNat lits.length
  numUnused := d.numVars - d.usedVars.length

end Document

end Clausify
