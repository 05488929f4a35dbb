import Clausify.Compile
import Clausify.Config.Load
import Clausify.Document.Canonical
import Clausify.Document.Dimacs
import Clausify.Document.Formula
import Clausify.Document.Reading
import Clausify.Document.Statistics
import Clausify.Expr.Json
import Clausify.LogLevel
import Clausify.Proofs.Abandoned
import Clausify.Proofs.Acceptance
import Clausify.Proofs.Agreement
import Clausify.Proofs.Allocation
import Clausify.Proofs.Assembly
import Clausify.Proofs.Assignments
import Clausify.Proofs.Bijections
import Clausify.Proofs.BruteForce
import Clausify.Proofs.Canonical
import Clausify.Proofs.Checking
import Clausify.Proofs.Comments
import Clausify.Proofs.Compilation
import Clausify.Proofs.Composed
import Clausify.Proofs.Cost
import Clausify.Proofs.Counting
import Clausify.Proofs.Definitions
import Clausify.Proofs.Determinacy
import Clausify.Proofs.Dimacs
import Clausify.Proofs.Documents
import Clausify.Proofs.Embedding
import Clausify.Proofs.Emission
import Clausify.Proofs.Enumeration
import Clausify.Proofs.Environment
import Clausify.Proofs.Frame
import Clausify.Proofs.Gates
import Clausify.Proofs.Guards
import Clausify.Proofs.Integrity
import Clausify.Proofs.Inversion
import Clausify.Proofs.Laws
import Clausify.Proofs.Layout
import Clausify.Proofs.Loading
import Clausify.Proofs.Lockstep
import Clausify.Proofs.Meaning
import Clausify.Proofs.Mismatches
import Clausify.Proofs.Monotone
import Clausify.Proofs.Names
import Clausify.Proofs.Nesting
import Clausify.Proofs.NormalForm
import Clausify.Proofs.Numerals
import Clausify.Proofs.Occurrences
import Clausify.Proofs.Outcome
import Clausify.Proofs.Parsing
import Clausify.Proofs.Points
import Clausify.Proofs.Program
import Clausify.Proofs.Propagation
import Clausify.Proofs.Quiet
import Clausify.Proofs.Records
import Clausify.Proofs.Refusal
import Clausify.Proofs.Registers
import Clausify.Proofs.Renaming
import Clausify.Proofs.Representation
import Clausify.Proofs.Respelling
import Clausify.Proofs.Rewriting
import Clausify.Proofs.Runs
import Clausify.Proofs.Search
import Clausify.Proofs.Shape
import Clausify.Proofs.Solving
import Clausify.Proofs.Soundness
import Clausify.Proofs.Statement
import Clausify.Proofs.Success
import Clausify.Proofs.Tracing
import Clausify.Proofs.Trailers
import Clausify.Proofs.Transport
import Clausify.Proofs.Universe
import Clausify.Proofs.Valuation
import Clausify.Proofs.Words
import Clausify.Result.Models
import Clausify.Solver.Solutions
import Clausify.Trace
import Clausify.Value.Arithmetic
