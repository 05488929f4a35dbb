import Clausify.Fault
import Clausify.Notice

/-!
# Errors

Every failure of the library is one of these causes. `Error.kind` says whose fault it is and `Error.message` is the
text shown for it.
-/

namespace Clausify

/-- Why an operation failed. -/
inductive Error where
  -- Malformed input
  | zeroLiteral
  | notLiteral (v : Value)
  | repeatedVariable (v : Value)
  | unhashableUniverse (kind : String)
  | unhashableVariable (v : Value)
  | unassignedVariable (v : Value)
  | notEncoder (kind : String)
  | notDeferred (kind : String)
  | scopeSize (n : Value)
  | notScopeBody (kind : String)
  | invalidFormula (faults : List Fault)
  | invalidConfig (faults : List Fault)
  -- Broken invariants of an encoding
  | notOuter (literal : Value)
  | repeatedIndex (index : Value)
  | embeddingDomain
  | embeddingIndex (v index : Value)
  | embeddingRange (n : Nat)
  | unknownVariable (v : Value)
  | temporaryOutOfRange (index count : Int)
  | notInScope (v : Value)
  | unallocated (literal : Value) (nextVar : Int)
  | scopeMovedBack (outer inner : Int)
  | indexOutOfRange (index : Value) (nextVar : Int)
  | literalOutOfRange (clause : Nat) (literal : Value) (nextVar : Int)
  | counterDecreased (before after : Int)
  | scopesOpen
  -- Formula files
  | malformedHeader (line : Nat) (text : String)
  | invalidToken (line : Nat) (text : String)
  | unterminatedClause
  | formulaFileMissing (path : String)
  -- Constraints
  | unsupportedConstraint (kind : String)
  | namesOutsideUniverse (names : List String)
  -- Solving
  | solverUnavailable (name : String)
  | zeroForSolver
  | unassignedIndex
  -- Operations on values and files
  | noTemporary (index : Int) (count : Nat)
  | traceFileMissing (path : String)
  | invalidRecord (faults : List Fault)
  | unhashableKey
  | unsuitableValue
  | noOperation
  | invalidText
  | oversizedNumber
  | unreadableNumber
  | numberTooLarge
  | malformedBytes
  | tooManyVariables
  | folder (path : String)
  | notLevel
deriving DecidableEq

/-- The kinds of errors. -/
inductive Error.Kind where
  | validation
  | contract
  | formula
  | compilation
  | verification
  | index
  | fileMissing
  | record
  | key
  | type
  | operation
  | text
  | value
  | overflow
  | folder
deriving DecidableEq

namespace Error

def kind : Error → Kind
  | zeroLiteral | notLiteral _ | repeatedVariable _ | unhashableUniverse _ | unhashableVariable _
  | unassignedVariable _ | notEncoder _ | notDeferred _ | scopeSize _ | notScopeBody _ | invalidFormula _
  | invalidConfig _ => .validation
  | notOuter _ | repeatedIndex _ | embeddingDomain | embeddingIndex _ _ | embeddingRange _ | unknownVariable _
  | temporaryOutOfRange _ _ | notInScope _ | unallocated _ _ | scopeMovedBack _ _ | indexOutOfRange _ _
  | literalOutOfRange _ _ _ | counterDecreased _ _ | scopesOpen => .contract
  | malformedHeader _ _ | invalidToken _ _ | unterminatedClause | formulaFileMissing _ => .formula
  | unsupportedConstraint _ | namesOutsideUniverse _ => .compilation
  | solverUnavailable _ => .verification
  | unassignedIndex => .key
  | noTemporary _ _ => .index
  | traceFileMissing _ => .fileMissing
  | invalidRecord _ => .record
  | unhashableKey | unsuitableValue => .type
  | noOperation => .operation
  | invalidText => .text
  | zeroForSolver | oversizedNumber | unreadableNumber | malformedBytes | tooManyVariables
  | notLevel => .value
  | numberTooLarge => .overflow
  | folder _ => .folder

/-- The faults behind an error about a record. -/
def faults : Error → List Fault
  | invalidFormula fs | invalidConfig fs | invalidRecord fs => fs
  | _ => []

/-- The text of an error; faults stand apart from it. -/
def message : Error → String
  | zeroLiteral => "Literal cannot be zero"
  | notLiteral v => "Not a literal: " ++ v.text ++ " (" ++ v.kind ++ ")"
  | repeatedVariable v => "Duplicate variable in universe: " ++ v.text
  | unhashableUniverse kind => "Universe variables must be hashable: unhashable type: '" ++ kind ++ "'"
  | unhashableVariable v => "Variables must be hashable, got " ++ v.text
  | unassignedVariable v => "Unknown variable " ++ v.text
  | notEncoder kind => "Expected an Encoder, got " ++ kind
  | notDeferred kind => "Expected an Encoder or a callable, got " ++ kind
  | scopeSize n => "with_temps needs a non-negative int, got " ++ n.text
  | notScopeBody kind => "with_temps body must be an Encoder or a callable, got " ++ kind
  | invalidFormula _ => "Invalid CNF structure: <details>"
  | invalidConfig _ => "Invalid encoder config: <details>"
  | notOuter literal => "Cannot project " ++ literal.text ++ ": not an outer variable"
  | repeatedIndex index => "Variable map is not injective: index " ++ index.display ++ " used twice"
  | embeddingDomain => "Embedding must cover exactly the universe"
  | embeddingIndex v index => "Embedding index for " ++ v.text ++ " must be an int, got " ++ index.text
  | embeddingRange n => "Embedding must be a bijection onto 1.." ++ toString n
  | unknownVariable v => "Unknown variable " ++ v.text ++ ": not in the variable map"
  | temporaryOutOfRange index count =>
    (Value.temp index).text ++ " out of range for a scope of " ++ toString count ++ " temporaries"
  | notInScope v =>
    v.text ++ " is not a variable of this temporary scope (wrap outer literals with orig())"
  | unallocated literal nextVar =>
    "Literal " ++ literal.display ++ " references an index not yet allocated (next free: "
      ++ toString nextVar ++ ")"
  | scopeMovedBack outer inner =>
    "Temporary scope moved the index counter backwards (" ++ toString outer ++ " -> " ++ toString inner ++ ")"
  | indexOutOfRange index nextVar =>
    "Variable map image " ++ index.display ++ " outside 1.." ++ toString (nextVar - 1)
  | literalOutOfRange clause literal nextVar =>
    "Clause " ++ toString clause ++ " has literal " ++ literal.display ++ " outside 1.."
      ++ toString (nextVar - 1)
  | counterDecreased before after =>
    "Index counter decreased from " ++ toString before ++ " to " ++ toString after
  | scopesOpen => "Scopes left open at the end of the run"
  | malformedHeader line text => "Malformed header on line " ++ toString line ++ ": " ++ Text.quoted text
  | invalidToken line text => "Invalid literal " ++ Text.quoted text ++ " on line " ++ toString line
  | unterminatedClause => "Missing terminating 0 after last clause"
  | formulaFileMissing path => "DIMACS file not found: " ++ path
  | unsupportedConstraint kind => "Unsupported constraint: " ++ kind
  | namesOutsideUniverse names =>
    "Constraints mention variables outside the universe: " ++ (Value.list (names.map .str)).text
  | solverUnavailable name => "Solver '" ++ name ++ "' unavailable: " ++ name
  | zeroForSolver => "A solver takes no zeros"
  | noTemporary index count =>
    "Temporary " ++ toString index ++ " out of range for a scope of " ++ toString count
  | traceFileMissing path => "Trace file not found: " ++ path
  | unassignedIndex => "An index has no value"
  | invalidRecord _ => "Invalid record"
  | unhashableKey => "A list cannot be a key"
  | unsuitableValue => "The operation is not defined for values of this kind"
  | noOperation => "Values of this kind have no such operation"
  | invalidText => "The bytes are not UTF-8 text"
  | oversizedNumber => "The number has too many digits"
  | unreadableNumber => "The text is no number"
  | numberTooLarge => "The number is too large"
  | malformedBytes => "The text is no sequence of bytes"
  | tooManyVariables => "There are too many variables to count"
  | folder path => "Is a folder: " ++ path
  | notLevel => "The setting is not a level"

/-- The warning that goes with an error. -/
def warning? : Error → Option Notice
  | repeatedVariable v => some (.repeatedVariable v)
  | scopeSize n => some (.rejectedScope n)
  | _ => none

end Error

end Clausify
