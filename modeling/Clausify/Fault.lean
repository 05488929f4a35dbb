/-!
# Faults of records

A record that is read field by field may have several faults. Each has a place in the record and a cause.
-/

namespace Clausify

/-- A rule of the library that a well-typed field can break. -/
inductive Rule where
  | zeroLiteral
  | zeroInClause (clause : Nat)
  | literalBeyond (literal numVars : Int) (clause : Nat)
  | emptyName
  | longName
  | nameCharacters
  | repeatedNames
  | boundOutOfRange (size : Nat)
deriving DecidableEq

/-- The text of a broken rule. -/
def Rule.message : Rule → String
  | zeroLiteral => "Literal cannot be zero"
  | zeroInClause clause => "Literal 0 is invalid in clause " ++ toString clause
  | literalBeyond literal numVars clause =>
    "Literal " ++ toString literal ++ " exceeds num_vars " ++ toString numVars ++ " in clause " ++ toString clause
  | emptyName => "Variable name cannot be empty"
  | longName => "Variable name too long (max 64)"
  | nameCharacters => "Variable name must be alphanumeric/underscore"
  | repeatedNames => "Variable names must be unique in cardinality constraint"
  | boundOutOfRange size => "k must be in range [0, " ++ toString size ++ "]"

namespace Fault

/-- A step from a record or list to one of its parts. -/
inductive Step where
  | field (name : String)
  | item (index : Nat)
deriving DecidableEq

/-- What is wrong at a place. -/
inductive Cause where
  | missing
  | notInt
  | unreadableInt
  | oversizedInt
  | fractional
  | notFinite
  | belowBound
  | notBool
  | unreadableBool
  | notString
  | notList
  | notMapping
  | notRecord
  | notExpression
  | noTag
  | unknownTag
  | malformedText
  | rule (r : Rule)
deriving DecidableEq

/-- The code under which a cause is reported. -/
def Cause.code : Cause → String
  | missing => "missing"
  | notInt => "int_type"
  | unreadableInt => "int_parsing"
  | oversizedInt => "int_parsing_size"
  | fractional => "int_from_float"
  | notFinite => "finite_number"
  | belowBound => "greater_than_equal"
  | notBool => "bool_type"
  | unreadableBool => "bool_parsing"
  | notString => "string_type"
  | notList => "list_type"
  | notMapping => "dict_type"
  | notRecord => "model_type"
  | notExpression => "model_attributes_type"
  | noTag => "union_tag_not_found"
  | unknownTag => "union_tag_invalid"
  | malformedText => "json_invalid"
  | rule _ => "value_error"

/-- The text of a cause, for a broken rule. -/
def Cause.message? : Cause → Option String
  | rule r => some ("Value error, " ++ r.message)
  | _ => none

end Fault

/-- A fault: where it is and what it is. -/
structure Fault where
  path : List Fault.Step
  cause : Fault.Cause
deriving DecidableEq

namespace Fault

/-- A fault of the whole. -/
def here (cause : Cause) : Fault := ⟨[], cause⟩

/-- The fault of a part as a fault of the whole. -/
def under (step : Step) (f : Fault) : Fault := ⟨step :: f.path, f.cause⟩

end Fault

end Clausify
