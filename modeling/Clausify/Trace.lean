import Clausify.Journal
import Clausify.Json.Parser
import Clausify.Json.Printer
import Clausify.Record

/-!
# Traces

A trace is the document that a journal's events are kept in: each event has a kind, a payload and a time stamp.
-/

namespace Clausify

open Record

/-- An event of a trace. -/
structure TraceEvent where
  kind : String
  payload : List (String × Json)
  timestamp : String

/-- A document of events. -/
structure Trace where
  version : String
  runId : Option String
  events : List TraceEvent
  summary : List (String × Json)

/-! ### Events of a journal -/

namespace Event

/-- The kind of an event. -/
def kind : Event → String
  | constraintTaken _ _ => "IR_NODE"
  | contextEntered _ _ _ => "CONTEXT_ENTER"
  | contextLeft _ _ _ => "CONTEXT_EXIT"
  | temporariesAllocated _ _ _ => "TEMPS_ALLOC"
  | encodingFinished _ _ _ => "CNF_EMIT"

/-- The payload of an event about a context. -/
def contextPayload (path : String) (nextVar : Int) (clauses : Nat) : List (String × Json) :=
  [("context", .str path), ("next_var", .int nextVar), ("clauses", .int clauses)]

/-- The payload of an event. -/
def payload : Event → List (String × Json)
  | constraintTaken index kind => [("step_index", .int index), ("type", .str kind)]
  | contextEntered path nextVar clauses => contextPayload path nextVar clauses
  | contextLeft path nextVar clauses => contextPayload path nextVar clauses
  | temporariesAllocated base count path => [("base", .int base), ("count", .int count), ("context", .str path)]
  | encodingFinished clauses named auxiliary =>
    [("clauses", .int clauses), ("vars", .int named), ("aux_vars", .int auxiliary)]

end Event

namespace Trace

/-- Records an event. -/
def record (t : Trace) (kind : String) (payload : List (String × Json)) (timestamp : String) : Trace :=
  { t with events := t.events ++ [⟨kind, payload, timestamp⟩] }

/-- The events of a kind. -/
def eventsOf (t : Trace) (kind : String) : List TraceEvent :=
  t.events.filter (·.kind = kind)

/-! ### Reading -/

/-- Reads a mapping. -/
def readMapping (v : Json) : Reading (List (String × Json)) :=
  members .notMapping v

/-- Reads an event; `now` is the time stamp of an event without one. -/
def readEvent (now : String) (v : Json) : Reading TraceEvent := do
  let ms ← members .notRecord v
  (both (required "kind" string ms) (both (required "payload" readMapping ms)
    (optional "timestamp" now string ms))).map fun p => ⟨p.1, p.2.1, p.2.2⟩

/-- Reads a trace. -/
def read (now : String) (v : Json) : Reading Trace := do
  let ms ← members .notRecord v
  (both (optional "trace_version" "1.0" string ms) (both (optional "run_id" none (nullable string) ms)
    (both (optional "events" [] (list (readEvent now)) ms)
      (optional "summary" [] readMapping ms)))).map fun p => ⟨p.1, p.2.1, p.2.2.1, p.2.2.2⟩

/-- Reads the text of a trace. -/
def parse (now : String) (text : String) : Reading Trace :=
  match Json.parse text with
  | .ok v => read now v
  | .error _ => fault .malformedText

/-! ### Writing -/

/-- An event as JSON. -/
def eventToJson (e : TraceEvent) : Json :=
  .obj [("kind", .str e.kind), ("payload", .obj e.payload), ("timestamp", .str e.timestamp)]

/-- A trace as JSON. -/
def toJson (t : Trace) : Json :=
  .obj [("trace_version", .str t.version), ("run_id", match t.runId with
    | some s => .str s
    | none => .null), ("events", .arr (t.events.map eventToJson)), ("summary", .obj t.summary)]

/-- The text of a trace. -/
def render (t : Trace) : String :=
  t.toJson.pretty

end Trace

end Clausify
