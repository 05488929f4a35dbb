import Clausify.Cardinality.Bound
import Clausify.Encoder.Clause

/-!
# Cardinality constraints

Bounds on how many literals of a list hold, counted by position. At most one is encoded by pairs, a larger bound by
a sequential counter, and the other constraints by these two. Here the encoders are given by their clauses, for
literals that can be negated; `Clausify.Cardinality.Assembly` builds them from values.
-/

namespace Clausify

/-! ### The sequential counter -/

namespace Counter

/-- The temporary that says that at least `j` of the first `i + 1` literals hold, for `1 ≤ j ≤ k`. -/
def register (k i j : Nat) : Literal :=
  .temp ((i * k + (j - 1) : Nat) : Int) true

/-- The clauses of the first literal. -/
def firstRow (k : Nat) (x : Literal) : List (List Literal) :=
  [x.negate, register k 0 1] :: (List.range' 2 (k - 1)).map fun j => [(register k 0 j).negate]

/-- The clauses of a literal in between: literal `i + 1`, after the registers of row `i`. -/
def nextRow (k i : Nat) (x : Literal) : List (List Literal) :=
  [x.negate, register k (i + 1) 1] :: [(register k i 1).negate, register k (i + 1) 1] ::
    ((List.range' 2 (k - 1)).flatMap fun j =>
      [[x.negate, (register k i (j - 1)).negate, register k (i + 1) j],
        [(register k i j).negate, register k (i + 1) j]]) ++
    [[x.negate, (register k i k).negate]]

/-- The clauses of the literals after row `i`. The last literal needs no registers. -/
def laterRows (k i : Nat) : List Literal → List (List Literal)
  | [] => []
  | [x] => [[x.negate, (register k i k).negate]]
  | x :: xs => nextRow k i x ++ laterRows k (i + 1) xs

/-- The clauses that allow at most `k` of the literals, for `k` from 1 to below their number. -/
def clauses (k : Nat) : List Literal → List (List Literal)
  | [] => []
  | x :: xs => firstRow k x ++ laterRows k 0 xs

/-- The number of temporaries that the counter of `n` literals needs. -/
def size (n k : Nat) : Nat := (n - 1) * k

end Counter

/-! ### Constraints -/

/-- The pairs of members of a list at different positions, the earlier one first. -/
def pairs {α : Type} : List α → List (α × α)
  | [] => []
  | x :: xs => xs.map (x, ·) ++ pairs xs

/-- A bound on how many of the literals hold. -/
inductive Cardinality (L K : Type) where
  | atLeastOne (lits : List L)
  | atMostOne (lits : List L)
  | exactlyOne (lits : List L)
  | atMost (lits : List L) (k : K)
  | atLeast (lits : List L) (k : K)
  | exactly (lits : List L) (k : K)

namespace Cardinality

/-- The bound on how many of other literals hold. -/
def map {L M K : Type} (f : L → M) : Cardinality L K → Cardinality M K
  | atLeastOne lits => atLeastOne (lits.map f)
  | atMostOne lits => atMostOne (lits.map f)
  | exactlyOne lits => exactlyOne (lits.map f)
  | atMost lits k => atMost (lits.map f) k
  | atLeast lits k => atLeast (lits.map f) k
  | exactly lits k => exactly (lits.map f) k

section

variable {I : Type} [Index I]

/-- No two of the literals hold together. -/
def encodeAtMostOne (lits : List Literal) : Encoder I Unit :=
  .requireAll ((pairs lits).map fun p => [p.1.negate, p.2.negate])

/-- At most `k` of the literals hold. -/
def encodeAtMost (lits : List Literal) (k : Int) : Encoder I Unit :=
  if k < 0 then .require []
  else if lits.length ≤ k then .pure ()
  else if k = 0 then .requireAll (lits.map fun l => [l.negate])
  else .withFresh (Counter.size lits.length k.toNat)
    (.requireAll (Counter.clauses k.toNat (lits.map Literal.lift)))

/-- At least `k` of the literals hold: at most `n - k` of their negations do. -/
def encodeAtLeast (lits : List Literal) (k : Int) : Encoder I Unit :=
  if k ≤ 0 then .pure ()
  else if lits.length < k then .require []
  else encodeAtMost (lits.map Literal.negate) (lits.length - k)

/-- The encoder of a cardinality constraint. -/
def encode : Cardinality Literal Int → Encoder I Unit
  | atLeastOne lits => .require lits
  | atMostOne lits => encodeAtMostOne lits
  | exactlyOne lits => .seq [.require lits, encodeAtMostOne lits]
  | atMost lits k => encodeAtMost lits k
  | atLeast lits k => encodeAtLeast lits k
  | exactly lits k => .seq [encodeAtMost lits k, encodeAtLeast lits k]

end

/-- A constraint over values that are literals, with a value that is a bound; fails at the first literal that is none,
or else at the bound. -/
def check : Cardinality Value Value → Except Error (Cardinality Literal Int)
  | atLeastOne lits => return atLeastOne (← Literal.ofValues lits)
  | atMostOne lits => return atMostOne (← Literal.ofValues lits)
  | exactlyOne lits => return exactlyOne (← Literal.ofValues lits)
  | atMost lits k => do
    let lits ← Literal.ofValues lits
    return atMost lits (← Bound.above lits.length k)
  | atLeast lits k => do
    let lits ← Literal.ofValues lits
    return atLeast lits (← Bound.below lits.length k)
  | exactly lits k => do
    let lits ← Literal.ofValues lits
    return exactly lits (← Bound.above lits.length k)

end Cardinality

end Clausify
