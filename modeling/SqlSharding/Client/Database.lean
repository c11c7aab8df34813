import SqlSharding.Client.Properties
import SqlSharding.Execution.Statements
import SqlSharding.Routing.Router
import SqlSharding.Session.Basic

/-!
# Logical databases

A logical database puts together a router, the data sources and an engine. Its clients have a session each; a statement
of a client is routed, its units are bound to physical connections, and only when all of them are bound do they run.
-/

namespace SqlSharding.Client

open Physical (Backend Traffic Handle)
open Sources (Registry)
open Routing (Rule Router RouteResult KeySource)
open Execution (Engine Observer StatementUnit Context)

structure Database where
  router : Router
  registry : Registry
  engine : Engine
  properties : Properties

namespace Database

/-- The data sources that a rule needs. -/
def requiredSources (r : Rule) : List String := r.dataSources ++ r.defaultDataSource.toList

/-- A logical database of which every needed data source is registered. Without a number of workers in the properties
it has the given one. -/
def of (rule : Rule) (registry : Registry) (properties : Properties) (keys : KeySource) (observers : List Observer)
    (workers : Nat) : Outcome Database :=
  match (requiredSources rule).find? fun name => !registry.contains name with
  | some name => .error (.noDataSource name)
  | none =>
    let executor := properties.executor
    .ok ⟨⟨rule, properties.dialect, keys⟩, registry,
      .new (executor.workers.getD workers) executor.graceMs observers, properties⟩

/-- Shuts the engine down. Statements on several units fail from then on. -/
def shutdown (d : Database) : Outcome Unit × Database :=
  let (outcome, engine) := d.engine.shutdown
  (outcome, { d with engine })

end Database

/-- What a statement acts on: its client's session, the database, and the traffic with data sources; and the statement
itself, which changes too. -/
structure State (S : Type) where
  session : Session
  database : Database
  traffic : Traffic
  statement : S

/-- An action of a statement: it can fail, and what it did up to the failure stays done. -/
abbrev Action (S : Type) := EStateM Failure (State S)

namespace Action

variable {S α : Type}

/-- Acts by the session. -/
def onSession (x : Session.Operation α) : Action S α := fun s =>
  let put (t : Session.State) : State S :=
    { s with session := t.session, database := { s.database with registry := t.registry }, traffic := t.traffic }
  match x ⟨s.session, s.database.registry, s.traffic⟩ with
  | .ok a t => .ok a (put t)
  | .error f t => .error f (put t)

/-- Acts by the engine. -/
def onEngine (x : Engine.Action α) : Action S α := fun s =>
  let put (t : Engine.State) : State S :=
    { s with database := { s.database with engine := t.engine }, traffic := t.traffic }
  match x ⟨s.database.engine, s.traffic⟩ with
  | .ok a t => .ok a (put t)
  | .error f t => .error f (put t)

/-- Acts by the router. -/
def onRouter (x : Router → Outcome α × Router) : Action S α := fun s =>
  let (outcome, router) := x s.database.router
  let after := { s with database := { s.database with router } }
  match outcome with
  | .ok a => .ok a after
  | .error f => .error f after

def statement : Action S S := fun s => .ok s.statement s

def modifyStatement (f : S → S) : Action S Unit := fun s => .ok () { s with statement := f s.statement }

end Action

/-- The context of a new statement. -/
def Database.context (d : Database) : Context := .of d.properties.failFast

/-- Binds the units of a route to connections of the session, in their order. -/
def bind {S : Type} (b : Backend) (r : RouteResult) : Action S (List StatementUnit) :=
  r.units.mapM fun u => do
    let connection ← Action.onSession (Session.getConnection b u.dataSource r.kind)
    return ⟨u.dataSource, u.sql, [u.parameters], [], connection⟩

end SqlSharding.Client
