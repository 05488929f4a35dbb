import Clausify.Encoder.Clause

/-!
# Gates

Implications between conjunctions and disjunctions of literals, and definitions of a literal by others. A gate is
encoded by its clauses, without temporaries.
-/

namespace Clausify

/-- A gate over literals. -/
inductive Gate (L : Type) where
  /-- All hypotheses imply some conclusion. -/
  | allImplyAny (hyps concs : List L)
  | allImply (hyps : List L) (conc : L)
  | implyAny (hyp : L) (concs : List L)
  /-- Any hypothesis implies some conclusion. -/
  | anyImplyAny (hyps concs : List L)
  | anyImply (hyps : List L) (conc : L)
  /-- All hypotheses imply all conclusions. -/
  | allImplyAll (hyps concs : List L)
  | implyAll (hyp : L) (concs : List L)
  /-- Any hypothesis implies all conclusions. -/
  | anyImplyAll (hyps concs : List L)
  | imply (a b : L)
  | equivalent (a b : L)
  /-- `v` is the conjunction of `vs`. -/
  | isAll (v : L) (vs : List L)
  /-- `v` is the disjunction of `vs`. -/
  | isAny (v : L) (vs : List L)
  /-- `v` says that `a` and `b` are equivalent. -/
  | isIff (v a b : L)

namespace Gate

/-- The clause that all hypotheses imply some conclusion. -/
def implication (hyps concs : List Literal) : List Literal :=
  hyps.map Literal.negate ++ concs

/-- The clauses of a gate, in the order in which they are added. -/
def clauses : Gate Literal → List (List Literal)
  | allImplyAny hyps concs => [implication hyps concs]
  | allImply hyps conc => [implication hyps [conc]]
  | implyAny hyp concs => [implication [hyp] concs]
  | anyImplyAny hyps concs => hyps.map fun h => implication [h] concs
  | anyImply hyps conc => hyps.map fun h => implication [h] [conc]
  | allImplyAll hyps concs => concs.map fun c => implication hyps [c]
  | implyAll hyp concs => concs.map fun c => implication [hyp] [c]
  | anyImplyAll hyps concs => hyps.flatMap fun h => concs.map fun c => implication [h] [c]
  | imply a b => [implication [a] [b]]
  | equivalent a b => [implication [a] [b], implication [b] [a]]
  | isAll v vs => (vs.map fun c => implication [v] [c]) ++ [implication vs [v]]
  | isAny v vs => implication [v] vs :: vs.map fun h => implication [h] [v]
  | isIff v a b => [implication [v, a] [b], implication [v, b] [a], implication [a, b] [v], [a, b, v]]

/-- Adds the clauses of a gate. -/
def encode {I : Type} [Index I] (g : Gate Literal) : Encoder I Unit :=
  .requireAll g.clauses

/-- A gate over values that are literals; fails at the first value that is none. -/
def check : Gate Value → Except Error (Gate Literal)
  | allImplyAny hyps concs => return allImplyAny (← Literal.ofValues hyps) (← Literal.ofValues concs)
  | allImply hyps conc => return allImply (← Literal.ofValues hyps) (← Literal.ofValue conc)
  | implyAny hyp concs => return implyAny (← Literal.ofValue hyp) (← Literal.ofValues concs)
  | anyImplyAny hyps concs => do
    let concs ← Literal.ofValues concs
    return anyImplyAny (← Literal.ofValues hyps) concs
  | anyImply hyps conc => do
    let conc ← Literal.ofValue conc
    return anyImply (← Literal.ofValues hyps) conc
  | allImplyAll hyps concs => return allImplyAll (← Literal.ofValues hyps) (← Literal.ofValues concs)
  | implyAll hyp concs => return implyAll (← Literal.ofValue hyp) (← Literal.ofValues concs)
  | anyImplyAll hyps concs => do
    let concs ← Literal.ofValues concs
    return anyImplyAll (← Literal.ofValues hyps) concs
  | imply a b => return imply (← Literal.ofValue a) (← Literal.ofValue b)
  | equivalent a b => return equivalent (← Literal.ofValue a) (← Literal.ofValue b)
  | isAll v vs => do
    let vs ← Literal.ofValues vs
    return isAll (← Literal.ofValue v) vs
  | isAny v vs => do
    let vs ← Literal.ofValues vs
    return isAny (← Literal.ofValue v) vs
  | isIff v a b => return isIff (← Literal.ofValue v) (← Literal.ofValue a) (← Literal.ofValue b)

end Gate

end Clausify
