import Clausify.Cardinality
import Clausify.Encoder.Checked

/-!
# Cardinality constraints from values

A client hands over literals of any kind as values. A constraint is assembled from them by the checked operations,
which check the values wherever they are handed on. The sequential counter is built in its temporary scope: it embeds
the literals, negates them by unary minus, which not every value has, and fetches its registers from the scope. So
each of its clauses may fail to be built.
-/

namespace Clausify

/-! ### The sequential counter -/

namespace Counter

/-- The register for at least `j` of the first `i + 1` literals, fetched from the scope. -/
def fetch (scope : Scope) (k i j : Nat) : Except Error Value :=
  return (← scope.get (i * k + (j - 1))).toValue

/-- Builds the clauses of the first literal. -/
def buildFirst (scope : Scope) (k : Nat) (x : Value) : Except Error (List (List Value)) := do
  let one := [← x.neg, ← fetch scope k 0 1]
  let more ← (List.range' 2 (k - 1)).mapM fun j => return [← (← fetch scope k 0 j).neg]
  return one :: more

/-- Builds the clauses of a literal in between: literal `i + 1`, after the registers of row `i`. -/
def buildNext (scope : Scope) (k i : Nat) (x : Value) : Except Error (List (List Value)) := do
  let one := [← x.neg, ← fetch scope k (i + 1) 1]
  let carried := [← (← fetch scope k i 1).neg, ← fetch scope k (i + 1) 1]
  let more ← (List.range' 2 (k - 1)).mapM fun j => return [
    [← x.neg, ← (← fetch scope k i (j - 1)).neg, ← fetch scope k (i + 1) j],
    [← (← fetch scope k i j).neg, ← fetch scope k (i + 1) j]]
  let last := [← x.neg, ← (← fetch scope k i k).neg]
  return one :: carried :: more.flatten ++ [last]

/-- Builds the clauses of the literals after row `i`. The last literal needs no registers. -/
def buildLater (scope : Scope) (k i : Nat) : List Value → Except Error (List (List Value))
  | [] => .ok []
  | [x] => return [[← x.neg, ← (← fetch scope k i k).neg]]
  | x :: xs => return (← buildNext scope k i x) ++ (← buildLater scope k (i + 1) xs)

/-- Builds the clauses that allow at most `k` of the values, in a scope of the registers. -/
def build (scope : Scope) (k : Nat) : List Value → Except Error (List (List Value))
  | [] => .ok []
  | x :: xs => return (← buildFirst scope k x) ++ (← buildLater scope k 0 xs)

end Counter

/-! ### Constraints -/

variable {I : Type} [Index I]

namespace Assembled

/-- The value of the opposite literal. -/
def negated (v : Value) : Except Error Value :=
  return (← Literal.ofValue v).negate.toValue

/-- Not all of the literals hold. -/
def notAll (vs : List Value) : Except Error (Encoder I Unit) := do
  Checked.require (← vs.mapM negated)

/-- No two of the literals hold together. -/
def atMostOne (lits : List Value) : Except Error (Encoder I Unit) := do
  let _ ← Literal.ofValues lits
  return Checked.eachChosen (pairs lits) fun p => Construction.made (notAll [p.1, p.2])

/-- The counter of the literals up to `k`, in a scope of its registers. -/
def counter (lits : List Value) (k : Nat) (scope : Scope) : Except Error (Encoder I Unit) := do
  let embedded ← lits.mapM fun v => return (← Literal.embed v).toValue
  return Checked.requireAll (← Counter.build scope k embedded)

/-- At most `k` of the literals hold. -/
def atMost (lits : List Value) (k : Int) : Except Error (Encoder I Unit) := do
  let _ ← Literal.ofValues lits
  if k < 0 then Checked.require []
  else if lits.length ≤ k then return .pure ()
  else if k = 0 then return Checked.eachChosen lits fun v => Construction.made (notAll [v])
  else
    let body : ScopeBody I Unit := .made fun scope => Construction.made (counter lits k.toNat scope)
    Checked.withFresh (.int ((lits.length - 1) * k)) body

/-- At least `k` of the literals hold. -/
def atLeast (lits : List Value) (k : Int) : Except Error (Encoder I Unit) := do
  let _ ← Literal.ofValues lits
  if k ≤ 0 then return .pure ()
  else if lits.length < k then Checked.require []
  else atMost (← lits.mapM negated) (lits.length - k)

end Assembled

namespace Cardinality

/-- A cardinality constraint assembled from clauses, loops and the counter. -/
def assemble : Cardinality Value Int → Except Error (Encoder I Unit)
  | atLeastOne lits => Checked.require lits
  | atMostOne lits => Assembled.atMostOne lits
  | exactlyOne lits => do
    let _ ← Literal.ofValues lits
    Checked.seq [.encoder (← Checked.require lits), .encoder (← Assembled.atMostOne lits)]
  | atMost lits k => Assembled.atMost lits k
  | atLeast lits k => Assembled.atLeast lits k
  | exactly lits k => do
    let _ ← Literal.ofValues lits
    Checked.seq [.encoder (← Assembled.atMost lits k), .encoder (← Assembled.atLeast lits k)]

/-- The encoder of a constraint whose literals and bound are values. -/
def construct (c : Cardinality Value Value) : Except Error (Encoder I Unit) := do
  ((← c.check).map Literal.toValue).assemble

end Cardinality

end Clausify
