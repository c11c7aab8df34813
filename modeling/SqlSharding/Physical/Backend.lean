import SqlSharding.Failure
import SqlSharding.Physical.Call

/-!
# Traffic with data sources

All calls on data sources are kept in order, each with its failure if it failed. A backend says how data sources answer a
call; it may look at all the calls before. So one backend stands for one way in which the world outside can behave, and
a law about every backend holds wherever calls fail.
-/

namespace SqlSharding.Physical

/-- The rows that a query returns. -/
structure ResultSet where
  columns : List String
  rows : List (List Value)
  deriving DecidableEq, Inhabited, Repr

/-- A call that was made. -/
structure Entry where
  call : Call
  failure : Option Failure
  deriving Inhabited, Repr

/-- The calls that were made, the first one first. -/
abbrev Traffic := List Entry

/-- The number of connections that were opened at a data source. -/
def Traffic.opened (t : Traffic) (dataSource : String) : Nat :=
  t.countP fun e => e.call = .connect dataSource && e.failure.isNone

/-- How data sources answer, given the calls before; and what else comes from outside. -/
structure Backend where
  connect : Traffic → (dataSource : String) → Outcome Unit
  control : Traffic → Handle → Control → Outcome Unit
  query : Traffic → Handle → (sql : String) → (parameters : List Value) → Outcome ResultSet
  /-- The number of affected rows. -/
  update : Traffic → Handle → (sql : String) → (parameters : List Value) → GeneratedKeys → Outcome Nat
  /-- Whether the statement returned rows. -/
  execute : Traffic → Handle → (sql : String) → (parameters : List Value) → Outcome Bool
  /-- The number of affected rows for each parameter set. -/
  batch : Traffic → Handle → (sql : String) → (parameterSets : List (List Value)) → Outcome (List Nat)
  /-- The clock, in nanoseconds. -/
  now : Traffic → Nat
  /-- The number by which random choices are made. -/
  chance : Traffic → Nat

/-- What makes calls: an action on the traffic that can fail and keeps the calls made up to the failure. -/
abbrev Exchange := EStateM Failure Traffic

/-- Makes a call and keeps it, with its failure if it fails. -/
def Exchange.make (call : Call) (answer : Traffic → Outcome α) : Exchange α := fun t =>
  match answer t with
  | .ok a => .ok a (t ++ [⟨call, none⟩])
  | .error f => .error f (t ++ [⟨call, some f⟩])

/-- The outcome of an action, whether or not it fails. -/
def Exchange.attempt (x : Exchange α) : Exchange (Outcome α) := fun t =>
  match x t with
  | .ok a t => .ok (.ok a) t
  | .error f t => .ok (.error f) t

namespace Backend

variable (b : Backend)

/-- Opens a connection. -/
def openAt (dataSource : String) : Exchange Handle := do
  Exchange.make (.connect dataSource) fun t => b.connect t dataSource
  return ⟨dataSource, (← get).opened dataSource⟩

def controlOn (h : Handle) (c : Control) : Exchange Unit :=
  Exchange.make (.control h c) fun t => b.control t h c

def queryOn (h : Handle) (sql : String) (parameters : List Value) : Exchange ResultSet :=
  Exchange.make (.statement h (.query sql parameters)) fun t => b.query t h sql parameters

def updateOn (h : Handle) (sql : String) (parameters : List Value) (keys : GeneratedKeys) : Exchange Nat :=
  Exchange.make (.statement h (.update sql parameters keys)) fun t => b.update t h sql parameters keys

def executeOn (h : Handle) (sql : String) (parameters : List Value) : Exchange Bool :=
  Exchange.make (.statement h (.execute sql parameters)) fun t => b.execute t h sql parameters

def batchOn (h : Handle) (sql : String) (parameterSets : List (List Value)) : Exchange (List Nat) :=
  Exchange.make (.statement h (.batch sql parameterSets)) fun t => b.batch t h sql parameterSets

end Backend

end SqlSharding.Physical
