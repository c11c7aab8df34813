import SqlSharding.Physical.Backend
import SqlSharding.Session.Cache
import SqlSharding.Sources.Registry

/-!
# Sessions

A session stands for one connection to the logical database. It opens physical connections when they are first needed
and keeps them until they are released or the session is closed. A setting is made on every connection that is open, and
again on every connection that is opened later.
-/

namespace SqlSharding

open Physical (Backend Exchange Handle Traffic Control Setting Isolation)
open Sources (Registry LogicalSource Role)
open Session (Cache CacheKey)

/-- The last value of each setting that was made. -/
structure Session.Settings where
  autoCommit : Option Bool
  readOnly : Option Bool
  isolation : Option Isolation
  deriving DecidableEq, Inhabited, Repr

namespace Session.Settings

def empty : Settings := ⟨none, none, none⟩

/-- Keeps a setting. -/
def record (s : Settings) : Setting → Settings
  | .autoCommit on => { s with autoCommit := some on }
  | .readOnly on => { s with readOnly := some on }
  | .isolation level => { s with isolation := some level }

/-- The settings to be made on a new connection, in this order. -/
def made (s : Settings) : List Setting :=
  (s.autoCommit.map Setting.autoCommit).toList ++ (s.readOnly.map Setting.readOnly).toList
    ++ (s.isolation.map Setting.isolation).toList

end Session.Settings

structure Session where
  cache : Cache
  settings : Session.Settings
  /-- Whether a write went to a group, so that reads go to masters from then on. -/
  hasWritten : Bool
  isClosed : Bool
  deriving DecidableEq, Inhabited, Repr

namespace Session

/-- A new session, without connections. -/
def new : Session := ⟨[], .empty, false, false⟩

/-- Whether statements are committed one by one; they are unless the setting was made. -/
def autoCommit (s : Session) : Bool := s.settings.autoCommit.getD true

def readOnly (s : Session) : Bool := s.settings.readOnly.getD false

/-- Remembers a write that went to a group. -/
def afterUse (s : Session) (role : Option Role) (kind : Sql.StatementKind) : Session :=
  if role.isSome && kind.isWrite then { s with hasWritten := true } else s

/-- A session together with what it changes outside. -/
structure State where
  session : Session
  registry : Registry
  traffic : Traffic
  deriving Inhabited

/-- An operation of a session: it can fail, and what it did up to the failure stays done. -/
abbrev Operation := EStateM Failure State

namespace Operation

/-- Makes calls. -/
def exchange (x : Exchange α) : Operation α := fun s =>
  match x s.traffic with
  | .ok a t => .ok a { s with traffic := t }
  | .error f t => .error f { s with traffic := t }

/-- Fails if an outcome is a failure. -/
def demand : Outcome α → Operation α
  | .ok a => fun s => .ok a s
  | .error f => fun s => .error f s

def session : Operation Session := fun s => .ok s.session s

def modifySession (f : Session → Session) : Operation Unit := fun s => .ok () { s with session := f s.session }

/-- The logical data source of a name. -/
def find (logical : String) : Operation LogicalSource := fun s =>
  match s.registry.find logical with
  | .ok source => .ok source s
  | .error f => .error f s

/-- Chooses the physical data source that serves a role. -/
def select (b : Backend) (logical : String) (source : LogicalSource) (role : Option Role) : Operation String := fun s =>
  let (member, after) := source.select role (b.chance s.traffic)
  .ok member { s with registry := Named.insert logical after s.registry }

/-- Fails if the session is closed. -/
def requireOpen : Operation Session := do
  let s ← session
  if s.isClosed then throw .connectionClosed
  return s

end Operation

variable (b : Backend)

/-! ## Connections -/

/-- Opens a connection and makes the settings on it. If a setting fails, the connection is closed again. -/
def openWith (settings : Settings) (dataSource : String) : Exchange Handle := do
  let h ← b.openAt dataSource
  match ← Exchange.attempt (settings.made.forM fun setting => b.controlOn h (.set setting)) with
  | .ok () => return h
  | .error f =>
    let _ ← Exchange.attempt (b.controlOn h .close)
    throw (f.tagged dataSource)

/-- The connection that serves a kind of statements at a logical data source: the cached one, or else a new one, which
is cached then. -/
def getConnection (logical : String) (kind : Sql.StatementKind) : Operation Handle := do
  let source ← Operation.find logical
  let s ← Operation.requireOpen
  let role := source.roleFor kind s.hasWritten
  match s.cache.get? ⟨logical, role⟩ with
  | some h =>
    Operation.modifySession (·.afterUse role kind)
    return h
  | none =>
    let dataSource ← Operation.select b logical source role
    let h ← Operation.exchange (openWith b s.settings dataSource)
    Operation.modifySession fun s => { s.afterUse role kind with cache := s.cache.insert ⟨logical, role⟩ h }
    return h

/-- Connections to all members of a group, which are opened for the caller and not cached; of a single data source the
cached connection. -/
def getAllConnections (logical : String) : Operation (List Handle) := do
  match ← Operation.find logical with
  | .single _ => return [← getConnection b logical .select]
  | .group g =>
    let s ← Operation.requireOpen
    g.members.mapM fun member => Operation.exchange (openWith b s.settings member)

/-- Closes a connection and forgets it. A connection that is not cached stays as it is, and closing cannot fail. -/
def release (h : Handle) : Operation Unit := do
  if h ∈ (← Operation.session).cache.handles then
    Operation.modifySession fun s => { s with cache := s.cache.remove h }
    let _ ← Operation.exchange (Exchange.attempt (b.controlOn h .close))

/-! ## Calls on all connections -/

/-- Makes a call on connections one after the other, whether or not it fails on some. The failures are those of the
connections' data sources. -/
def failuresOn (c : Control) : List Handle → Exchange (List Failure)
  | [] => return []
  | h :: rest => do
    let outcome ← Exchange.attempt (b.controlOn h c)
    let later ← failuresOn c rest
    match outcome with
    | .ok () => return later
    | .error f => return f.tagged h.dataSource :: later

/-- Makes a call on some connections and reports all failures together. -/
def callOn (handles : List Handle) (c : Control) : Operation Unit := do
  let failures ← Operation.exchange (failuresOn b c handles)
  Operation.demand (Failure.collapse c.name failures)

/-- Makes a call on all cached connections. -/
def callOnAll (c : Control) : Operation Unit := do
  callOn b (← Operation.session).cache.handles c

/-- Makes a setting: it is kept, even if it fails on some connections. -/
def set (setting : Setting) : Operation Unit := do
  let _ ← Operation.requireOpen
  Operation.modifySession fun s => { s with settings := s.settings.record setting }
  callOnAll b (.set setting)

def commit : Operation Unit := callOnAll b .commit

def rollback : Operation Unit := callOnAll b .rollback

/-- Closes the session and all its connections. Closing it again does nothing. -/
def close : Operation Unit := do
  let s ← Operation.session
  if !s.isClosed then
    Operation.modifySession fun s => { s with cache := [], hasWritten := false, isClosed := true }
    callOn b s.cache.handles .close

end Session

end SqlSharding
