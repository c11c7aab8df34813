import SqlSharding.Client.Statement

/-!
# Servers

A server is a logical database together with the sessions of all its clients, which share its router, its data sources
and its engine.
-/

namespace SqlSharding.Client

open Physical (Traffic)

structure Server where
  database : Database
  traffic : Traffic
  /-- The sessions, each at its number. -/
  sessions : List Session

namespace Server

/-- A server without sessions. -/
def of (database : Database) : Server := ⟨database, [], []⟩

/-- The session of a number; one that was never opened is new. -/
def session (s : Server) (id : Nat) : Session := (s.sessions[id]?).getD .new

/-- Opens a session, and gives its number. -/
def openSession (s : Server) : Nat × Server := (s.sessions.length, { s with sessions := s.sessions ++ [.new] })

/-- Acts on a statement of a session, and gives the statement as it is afterwards. -/
def act {S α : Type} (s : Server) (id : Nat) (statement : S) (x : Action S α) : Outcome α × S × Server :=
  let after (t : State S) : S × Server :=
    (t.statement, ⟨t.database, t.traffic, s.sessions.set id t.session⟩)
  match x ⟨s.session id, s.database, s.traffic, statement⟩ with
  | .ok a t => (.ok a, after t)
  | .error f t => (.error f, after t)

/-- Operates a session. -/
def operate {α : Type} (s : Server) (id : Nat) (x : Session.Operation α) : Outcome α × Server :=
  let (outcome, _, after) := s.act id () (Action.onSession x)
  (outcome, after)

/-- Shuts the engine down. -/
def shutdown (s : Server) : Outcome Unit × Server :=
  let (outcome, database) := s.database.shutdown
  (outcome, { s with database })

/-- What the observers of the engine have seen. -/
def observers (s : Server) : List Execution.Observer := s.database.engine.observers

/-- Brings the monitors back to where they were before the first event. -/
def resetMonitors (s : Server) : Server :=
  let engine := { s.database.engine with observers := s.observers.map (·.resetMonitor) }
  { s with database := { s.database with engine } }

end Server

end SqlSharding.Client
