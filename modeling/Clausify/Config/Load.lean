import Clausify.Config.Basic
import Clausify.File
import Clausify.Journal
import Clausify.Json.Parser
import Clausify.Record

/-!
# Loading configurations

A configuration comes from a file and from settings of the environment, which win over the file. A file that is not
there counts for nothing, and so does, with a warning, one that cannot be read or holds no JSON object.
-/

namespace Clausify

open Record

/-- Reads a configuration from the members of an object. Members that are left out have their defaults. -/
def Config.read (ms : List (String × Json)) : Reading Config :=
  let d : Config := {}
  (both (optional "check_invariants" d.checkInvariants bool ms)
    (both (optional "solver_name" d.solverName string ms)
      (both (optional "max_solutions" d.maxSolutions (nullable (intFrom 1)) ms)
        (optional "trace_contexts" d.traceContexts bool ms)))).map fun p => ⟨p.1, p.2.1, p.2.2.1, p.2.2.2⟩

/-- Settings of the environment. -/
structure Environment where
  checkInvariants : Option String
  solverName : Option String

namespace Config

/-- The members of a configuration file. -/
def fileMembers (path : String) : File → Journaled (List (String × Json))
  | .missing => return []
  | .folder => ignored (.unreadableConfig path)
  | .bytes content =>
    match String.fromUTF8? content with
    | none => throw .invalidText
    | some text => match Json.parseWith .replaced text with
      | .ok (.obj ms) => return ms
      | .ok v => ignored (.configNotObject path v.kind)
      | .error .malformed => ignored (.unreadableConfig path)
      | .error .oversized => throw .oversizedNumber
where
  /-- No members, with a warning. -/
  ignored (n : Notice) : Journaled (List (String × Json)) := do
    modify fun j => j.notice n
    return []

/-- Whether a setting switches something on. -/
def isOn (setting : String) : Bool :=
  ["1", "true", "yes", "on"].contains (String.ofList ((Text.trim setting.toList).map Char.toLower))

/-- The members of a configuration as changed by the environment. An empty solver name counts for nothing. -/
def override (env : Environment) (ms : List (String × Json)) : List (String × Json) :=
  let ms := match env.checkInvariants with
    | some setting => Json.enterMember "check_invariants" (.bool (isOn setting)) ms
    | none => ms
  match env.solverName with
  | some name => if name.isEmpty then ms else Json.enterMember "solver_name" (.str name) ms
  | none => ms

/-- Loads the configuration. -/
def load (env : Environment) (path : String) (file : File) : Journaled Config := do
  let ms ← fileMembers path file
  match Config.read (override env ms) with
  | .ok c => return c
  | .error fs => throw (.invalidConfig fs)

end Config

end Clausify
