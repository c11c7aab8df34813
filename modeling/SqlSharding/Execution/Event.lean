import SqlSharding.ValueJson

/-!
# Events

A physical statement is reported by two events: one before it runs, and one of the same number with its outcome.
-/

namespace SqlSharding.Execution

inductive EventStatus where
  | before
  | success
  | failure
  deriving DecidableEq, Inhabited, Repr

namespace EventStatus

def name : EventStatus → String
  | before => "before"
  | success => "success"
  | failure => "failure"

def ofJson? (j : Json) : Option EventStatus := do
  let name ← j.toVariant?
  [before, success, failure].find? fun status => status.name = name

end EventStatus

structure Event where
  id : Nat
  dataSource : String
  sql : String
  parameters : List Value
  status : EventStatus
  /-- The text of a failure. -/
  error : Option String
  timestampNs : Nat
  deriving DecidableEq, Inhabited, Repr

namespace Event

/-- The event before a statement. -/
def before (id : Nat) (dataSource sql : String) (parameters : List Value) (timestampNs : Nat) : Event :=
  ⟨id, dataSource, sql, parameters, .before, none, timestampNs⟩

/-- The event after a statement that succeeded. -/
def succeeded (e : Event) (timestampNs : Nat) : Event := { e with status := .success, error := none, timestampNs }

/-- The event after a statement that failed. -/
def failed (e : Event) (error : String) (timestampNs : Nat) : Event :=
  { e with status := .failure, error := some error, timestampNs }

def ofJson? (j : Json) : Option Event := do
  let [id, source, sql, parameters, status, error, timestamp] ← j.recordMembers?
    ["id", "data_source", "sql", "parameters", "status", "error", "timestamp_ns"] | none
  return ⟨← Json.required? (Json.toNatBelow? nat64Bound) id, ← Json.required? Json.toString? source,
    ← Json.required? Json.toString? sql, ← Json.required? (Json.toList? Value.ofJson?) parameters,
    ← Json.required? EventStatus.ofJson? status, ← Json.orDefault? none (Json.toOption? Json.toString?) error,
    ← Json.required? (Json.toNatBelow? nat64Bound) timestamp⟩

def toJson (e : Event) : Json :=
  .object [("id", .ofNat e.id), ("data_source", .string e.dataSource), ("sql", .string e.sql),
    ("parameters", .array (e.parameters.map Value.toJson)), ("status", .string e.status.name),
    ("error", .ofOption .string e.error), ("timestamp_ns", .ofNat e.timestampNs)]

end Event

end SqlSharding.Execution
