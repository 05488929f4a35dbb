import Clausify.Document.Basic
import Clausify.Error
import Clausify.File
import Clausify.Text.Blank
import Clausify.Text.Integer
import Clausify.Text.Line

/-!
# DIMACS text

A header `p cnf` with the numbers of variables and clauses, and the clauses, each with a 0 behind it. `Dimacs.render`
writes one clause a line. `Dimacs.parse` reads literals wherever they stand, skips lines that start with `c` or `%`,
tolerates a missing header, and widens a header that is too small. Both refuse numbers of more than `Text.maxDigits`
digits.
-/

namespace Clausify.Dimacs

/-! ### Writing -/

/-- The text of a number, unless it has too many digits. -/
def number (n : Int) : Except Error String :=
  if (Nat.toDigits 10 n.natAbs).length ≤ Text.maxDigits then .ok (toString n) else .error .oversizedNumber

/-- The line of a clause. -/
def clauseLine (c : List Int) : Except Error String :=
  return " ".intercalate ((← c.mapM number) ++ ["0"])

/-- The text of a document, with comments in front. -/
def render (d : Document) (comments : List String) : Except Error String := do
  let header := "p cnf " ++ (← number d.numVars) ++ " " ++ (← number d.clauses.length)
  let lines := comments.map ("c " ++ ·) ++ header :: (← d.clauses.mapM clauseLine)
  return String.join (lines.map (· ++ "\n"))

/-! ### Reading -/

/-- What a line contributes. -/
inductive Line where
  | nothing
  /-- The number of variables of a header. -/
  | header (numVars : Int)
  /-- Literals, and zeros behind clauses. -/
  | literals (ls : List Int)
deriving DecidableEq

/-- Reads a header line. -/
def header? (line : List Char) : Option Int :=
  match Text.words line with
  | [_, ['c', 'n', 'f'], v, c] => do
    let v ← Text.integer? v
    let _ ← Text.integer? c
    return v
  | _ => none

/-- Reads the line with number `no`. -/
def readLine (no : Nat) (raw : List Char) : Except Error Line :=
  let line := Text.trim raw
  match line with
  | [] | 'c' :: _ | '%' :: _ => .ok .nothing
  | 'p' :: _ => match header? line with
    | some v => .ok (.header v)
    | none => .error (.malformedHeader no (String.ofList line))
  | _ => do
    let ls ← (Text.words line).mapM fun w => match Text.integer? w with
      | some l => .ok l
      | none => .error (.invalidToken no (String.ofList w))
    return .literals ls

/-- The number of variables of the last header. -/
def declared? (lines : List Line) : Option Int :=
  lines.foldl (fun d l => match l with
    | .header v => some v
    | _ => d) none

/-- The literals and zeros of all lines. -/
def tokens (lines : List Line) : List Int :=
  lines.flatMap fun l => match l with
    | .literals ls => ls
    | _ => []

/-- The clauses with a zero behind them, and the literals after the last zero. -/
def splitClauses : List Int → List (List Int) × List Int
  | [] => ([], [])
  | l :: ls =>
    match splitClauses ls with
    | (cs, rest) =>
      if l = 0 then ([] :: cs, rest)
      else match cs with
        | [] => ([], l :: rest)
        | c :: cs => ((l :: c) :: cs, rest)

/-- The largest variable of clauses. -/
def maxVar (clauses : List (List Int)) : Nat :=
  clauses.foldl (fun n c => c.foldl (fun n l => max n l.natAbs) n) 0

/-- Reads a document. -/
def parse (text : String) : Except Error Document := do
  let lines ← (Text.lines text.toList).zipIdx.mapM fun (raw, i) => readLine (i + 1) raw
  let (clauses, rest) := splitClauses (tokens lines)
  if !rest.isEmpty then throw .unterminatedClause
  let numVars := max ((declared? lines).getD 0) (maxVar clauses)
  match Document.ofClauses numVars clauses with
  | .ok d => return d
  | .error fs => throw (.invalidRecord fs)

/-- Reads the document in a file. -/
def parseFile (path : String) : File → Except Error Document
  | .missing => .error (.formulaFileMissing path)
  | .folder => .error (.folder path)
  | .bytes content => match String.fromUTF8? content with
    | none => .error .invalidText
    | some text => parse (String.ofList (Text.unifyNewlines text.toList))

end Clausify.Dimacs
