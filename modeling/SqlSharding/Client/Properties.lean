import SqlSharding.Failure
import SqlSharding.Json.Decode
import SqlSharding.Sql.Dialect

/-!
# Properties

The properties of a logical database: the dialect of its statements, the size of its executor, and whether statements
tolerate failing units.
-/

namespace SqlSharding.Client

structure ExecutorConfig where
  /-- The number of workers; without it the machine decides. -/
  workers : Option Nat
  /-- How long a shutdown waits for running statements. -/
  graceMs : Nat
  deriving DecidableEq, Inhabited, Repr

namespace ExecutorConfig

def default : ExecutorConfig := ⟨none, 5000⟩

def ofJson? (j : Json) : Option ExecutorConfig := do
  let [workers, grace] ← j.recordMembers? ["executor_size", "shutdown_grace_ms"] | none
  return ⟨← Json.orDefault? default.workers (fun j => some <$> j.toNatBelow? nat64Bound) workers,
    ← Json.orDefault? default.graceMs (Json.toNatBelow? nat64Bound) grace⟩

end ExecutorConfig

structure Properties where
  dialect : Sql.Dialect
  executor : ExecutorConfig
  /-- Whether a failing unit fails a statement, unless the statement says otherwise. -/
  failFast : Bool
  deriving DecidableEq, Inhabited, Repr

namespace Properties

def default : Properties := ⟨.mysql, .default, true⟩

def ofJson? (j : Json) : Option Properties := do
  let [dialect, executor, failFast] ← j.recordMembers? ["dialect", "executor", "fail_fast"] | none
  return ⟨← Json.orDefault? default.dialect (fun j => j.toVariant?.bind Sql.Dialect.ofName?) dialect,
    ← Json.orDefault? default.executor ExecutorConfig.ofJson? executor,
    ← Json.orDefault? default.failFast Json.toBool? failFast⟩

/-- Reads properties from a JSON text. -/
def ofText (text : String) : Outcome Properties :=
  match Json.ofText? text with
  | none => .error (.configuration "invalid properties: the text is not a JSON value")
  | some j => (ofJson? j).elim (.error (.configuration "invalid properties: a member has a wrong shape")) .ok

end Properties

end SqlSharding.Client
