import Clausify.Document.Basic
import Clausify.Record

/-!
# Reading documents

Documents are read from JSON, or from values that stand for their parts.
-/

namespace Clausify

open Record

namespace Document

/-- Reads a document. -/
def read (ms : List (String × Json)) : Reading Document :=
  ofFields ((required "num_vars" (intFrom 0) ms).map Int.toNat) (required "clauses" (list (list int)) ms)

/-- Reads a document from a number of variables and clauses. -/
def ofValues (numVars : Value) (clauses : List (List Value)) : Reading Document :=
  let size := under (.field "num_vars") (notBelow 0 (intOfValue numVars))
  ofFields (size.map Int.toNat) (under (.field "clauses") (items (items intOfValue 0) 0 clauses))

end Document

/-- What is wrong with a literal of a clause. -/
def zeroFault? (l : Int) : Option Rule :=
  if l = 0 then some .zeroLiteral else none

/-- Reads clauses of nonzero literals. -/
def readClauses (v : Json) : Reading (List (List Int)) :=
  list (list fun l => checked zeroFault? (int l)) v

end Clausify
