import Clausify.Document.Basic
import Clausify.Hash.Sha256
import Clausify.Index

/-!
# Canonical form

The canonical form of a formula does not depend on the order of its clauses and of the literals in them. Its hash
identifies a document up to that order.
-/

namespace Clausify

namespace Canonical

variable {I : Type} [Index I]

/-- The variable of a literal. -/
def var (l : I) : I :=
  (Index.magnitude l).toOption.getD l

/-- Literals are ordered by their variables, the negative one first. -/
def literalLe (a b : I) : Bool :=
  Index.lt (var a) (var b) || (Index.same (var a) (var b) && Index.le a b)

/-- A clause with its literals in order. -/
def clause (c : List I) : List I :=
  c.mergeSort literalLe

/-- Clauses are ordered by the first literal in which they differ, a clause being before its extensions. -/
def clauseLe : List I → List I → Bool
  | [], _ => true
  | _ :: _, [] => false
  | a :: as, b :: bs => Index.lt a b || (Index.same a b && clauseLe as bs)

/-- The clauses in canonical form, in lexicographic order. -/
def clauses (cs : List (List I)) : List (List I) :=
  (cs.map clause).mergeSort clauseLe

/-- Fails unless all literals have variables. -/
def check (cs : List (List I)) : Except Error Unit :=
  cs.forM fun c => c.forM fun l => do let _ ← Index.magnitude l

/-- The text of a formula in canonical form. -/
def text (numVars : Nat) (cs : List (List Int)) : String :=
  let canonical := clauses cs
  let header := "p cnf " ++ toString numVars ++ " " ++ toString canonical.length
  "\n".intercalate (header :: canonical.map fun c => " ".intercalate (c.map toString ++ ["0"]))

end Canonical

/-- The hash of a document up to the order of clauses and literals. -/
def Document.digest (d : Document) : String :=
  Sha256.hexDigest (Canonical.text d.numVars d.clauses).toUTF8.toList

end Clausify
