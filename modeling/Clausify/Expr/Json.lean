import Clausify.Constraint
import Clausify.Expr.Name
import Clausify.Record

/-!
# Constraints as JSON

An expression or bound is an object whose member `kind` says which. Reading checks the names of variables and the
range of a bound.
-/

namespace Clausify

open Record

/-! ### Writing -/

/-- A variable as JSON. -/
def nameToJson (name : String) : Json :=
  .obj [("name", .str name)]

namespace Expr

mutual

/-- An expression as JSON. -/
def toJson : Expr → Json
  | lit name negated => .obj [("kind", .str "lit"), ("var", nameToJson name), ("neg", .bool negated)]
  | not e => .obj [("kind", .str "not"), ("term", toJson e)]
  | and es => .obj [("kind", .str "and"), ("terms", .arr (toJsonAll es))]
  | or es => .obj [("kind", .str "or"), ("terms", .arr (toJsonAll es))]
  | imp a b => .obj [("kind", .str "imp"), ("a", toJson a), ("b", toJson b)]
  | iff a b => .obj [("kind", .str "iff"), ("a", toJson a), ("b", toJson b)]
  | xor a b => .obj [("kind", .str "xor"), ("a", toJson a), ("b", toJson b)]

/-- Expressions as JSON. -/
def toJsonAll : List Expr → List Json
  | [] => []
  | e :: es => toJson e :: toJsonAll es

end

end Expr

/-- A constraint as JSON. -/
def Constraint.toJson : Constraint → Json
  | expr e => e.toJson
  | atLeast k names => bound "at_least" k names
  | atMost k names => bound "at_most" k names
  | exactly k names => bound "exactly" k names
where
  /-- A bound as JSON. -/
  bound (kind : String) (k : Nat) (names : List String) : Json :=
    .obj [("k", .int k), ("vars", .arr (names.map nameToJson)), ("kind", .str kind)]

/-! ### Reading -/

/-- Reads the name of a variable. -/
def readName (v : Json) : Reading String :=
  checked nameFault? (string v)

/-- Reads a variable. -/
def readVar (v : Json) : Reading String := do
  required "name" readName (← members .notRecord v)

/-- Reads the fields of a literal. -/
def readLiteral (ms : List (String × Json)) : Reading Expr :=
  (both (required "var" readVar ms) (optional "neg" false bool ms)).map fun p => .lit p.1 p.2

/-- The kinds of expressions. -/
inductive Expr.Kind where
  | lit
  | not
  | and
  | or
  | imp
  | iff
  | xor
deriving DecidableEq

/-- The kind with a name. -/
def Expr.Kind.ofName? (name : String) : Option Expr.Kind :=
  match name with
  | "lit" => some .lit
  | "not" => some .not
  | "and" => some .and
  | "or" => some .or
  | "imp" => some .imp
  | "iff" => some .iff
  | "xor" => some .xor
  | _ => none

mutual

/-- Reads a part of an expression. -/
def Expr.read (v : Json) : Reading Expr :=
  match v with
  | .obj ms => match Json.member? "kind" ms with
    | none => fault .noTag
    | some (.str name) => match Expr.Kind.ofName? name with
      | some kind => under (.field name) (Expr.readAs kind ms)
      | none => fault .unknownTag
    | some _ => fault .unknownTag
  | _ => fault .notExpression
termination_by (sizeOf v, 0)

/-- Reads the parts of an expression, which are numbered from `i` on. -/
def Expr.readItems (i : Nat) (vs : List Json) : Reading (List Expr) :=
  match vs with
  | [] => .ok []
  | v :: vs => (both (under (.item i) (Expr.read v)) (Expr.readItems (i + 1) vs)).map fun p => p.1 :: p.2
termination_by (sizeOf vs, 0)

/-- Reads the terms of an expression. -/
def Expr.readTerms (ms : List (String × Json)) : Reading (List Expr) :=
  under (.field "terms") (match h : Json.member? "terms" ms with
    | some (.arr vs) =>
      have := Json.sizeOf_lt_of_member? h
      Expr.readItems 0 vs
    | some _ => fault .notList
    | none => fault .missing)
termination_by (sizeOf ms, 0)
decreasing_by simp at this; exact Prod.Lex.left _ _ (by omega)

/-- Reads one field of an expression. -/
def Expr.readField (name : String) (ms : List (String × Json)) : Reading Expr :=
  under (.field name) (match h : Json.member? name ms with
    | some v =>
      have := Json.sizeOf_lt_of_member? h
      Expr.read v
    | none => fault .missing)
termination_by (sizeOf ms, 0)

/-- Reads the fields of an expression of a kind. -/
def Expr.readAs (kind : Expr.Kind) (ms : List (String × Json)) : Reading Expr :=
  match kind with
  | .lit => readLiteral ms
  | .not => (Expr.readField "term" ms).map .not
  | .and => (Expr.readTerms ms).map .and
  | .or => (Expr.readTerms ms).map .or
  | .imp => (both (Expr.readField "a" ms) (Expr.readField "b" ms)).map fun p => .imp p.1 p.2
  | .iff => (both (Expr.readField "a" ms) (Expr.readField "b" ms)).map fun p => .iff p.1 p.2
  | .xor => (both (Expr.readField "a" ms) (Expr.readField "b" ms)).map fun p => .xor p.1 p.2
termination_by (sizeOf ms, 1)

end

/-- What is wrong with the names of a bound. -/
def repeatedFault? (names : List String) : Option Rule :=
  if names.Nodup then none else some .repeatedNames

/-- Reads the fields of a bound. -/
def readBound (ms : List (String × Json)) : Reading (Nat × List String) := do
  let readVars (v : Json) : Reading (List String) := checked repeatedFault? (list readVar v)
  let (k, names) ← both (required "k" int ms) (required "vars" readVars ms)
  if 0 ≤ k ∧ k ≤ names.length then return (k.toNat, names) else fault (.rule (.boundOutOfRange names.length))

namespace Constraint

/-- Reads the fields of a constraint of the kind with a name; nothing if there is no such kind. -/
def readAs? (kind : String) (ms : List (String × Json)) : Option (Reading Constraint) :=
  match kind with
  | "at_least" => some ((readBound ms).map fun p => .atLeast p.1 p.2)
  | "at_most" => some ((readBound ms).map fun p => .atMost p.1 p.2)
  | "exactly" => some ((readBound ms).map fun p => .exactly p.1 p.2)
  | name => (Expr.Kind.ofName? name).map fun k => (Expr.readAs k ms).map .expr

end Constraint

/-- Reads a constraint. What does not say that it is one is passed on as something else. -/
def Candidate.read (v : Json) : Reading Candidate :=
  match v with
  | .obj ms => match Json.member? "kind" ms with
    | some (.str name) => match Constraint.readAs? name ms with
      | some r => r.map .constraint
      | none => .ok (.other v.kind .unknownTag)
    | some _ => .ok (.other v.kind .unknownTag)
    | none => .ok (.other v.kind .noTag)
  | _ => .ok (.other v.kind .notExpression)

/-- The variable with a name as an expression; the name is checked first. -/
def Expr.readVariable (name negated : Json) : Reading Expr := do
  let name ← under (.field "name") (readName name)
  return .lit name (← under (.field "neg") (bool negated))

end Clausify
