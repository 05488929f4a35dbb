import Clausify.Expr.Basic
import Clausify.Gate

/-!
# Encoding of expressions

An expression is encoded in its normal form, one conjunct after the other. A literal or a disjunction of literals is
a clause. Any other conjunct is encoded in a temporary scope with one temporary for each of its gates, which is
defined by the outputs of the parts, and the output of the whole is asserted.
-/

namespace Clausify.Expr

/-- The literal of a named variable. -/
def literal (name : String) (negated : Bool) : Literal :=
  .named (.str name) !negated

/-! ### Definitions of gates

The gates of an expression are numbered from some `i` on, each before those of its parts. -/

/-- The literal for an expression whose gates are numbered from `i` on. -/
def output (i : Nat) : Expr → Literal
  | lit name negated => (literal name negated).lift
  | not e => (output i e).negate
  | _ => .temp i true

/-- The literals for expressions whose gates are numbered one after the other. -/
def outputs (i : Nat) : List Expr → List Literal
  | [] => []
  | e :: es => output i e :: outputs (i + e.numGates) es

mutual

/-- The definitions of the gates of an expression, each behind those of its parts. -/
def definitions (i : Nat) : Expr → List (Gate Literal)
  | lit _ _ => []
  | not e => definitions i e
  | and es => definitionsAll (i + 1) es ++ [.isAll (.temp i true) (outputs (i + 1) es)]
  | or es => definitionsAll (i + 1) es ++ [.isAny (.temp i true) (outputs (i + 1) es)]
  | imp a b =>
    let j := i + 1 + a.numGates
    definitions (i + 1) a ++ definitions j b ++
      [.isAny (.temp i true) [(output (i + 1) a).negate, output j b]]
  | iff a b =>
    let j := i + 1 + a.numGates
    definitions (i + 1) a ++ definitions j b ++
      [.isIff (.temp i true) (output (i + 1) a) (output j b)]
  | xor a b =>
    let j := i + 1 + a.numGates
    definitions (i + 1) a ++ definitions j b ++
      [.isIff (.temp i false) (output (i + 1) a) (output j b)]

/-- The definitions of the gates of expressions in a row. -/
def definitionsAll (i : Nat) : List Expr → List (Gate Literal)
  | [] => []
  | e :: es => definitions i e ++ definitionsAll (i + e.numGates) es

end

/-! ### Encoders -/

variable {I : Type} [Index I]

/-- The literal that an expression is. -/
def literal? : Expr → Option Literal
  | lit name negated => some (literal name negated)
  | _ => none

/-- The clause that an expression is: a literal or a disjunction of literals. -/
def clause? : Expr → Option (List Literal)
  | lit name negated => some [literal name negated]
  | or es => es.mapM literal?
  | _ => none

/-- Asserts an expression by its gates. -/
def encodeGates (e : Expr) : Encoder I Unit :=
  .withFresh e.numGates (.seq ((definitions 0 e).map Gate.encode ++ [.require [output 0 e]]))

/-- Asserts an expression that is no conjunction. -/
def encodeConjunct (e : Expr) : Encoder I Unit :=
  match e.clause? with
  | some c => .require c
  | none => encodeGates e

/-- Asserts an expression. -/
def encode (e : Expr) : Encoder I Unit :=
  .each e.normalize.conjuncts encodeConjunct

end Clausify.Expr
