import SqlSharding.Failure
import SqlSharding.Json.Decode
import SqlSharding.Sql.Dialect
import SqlSharding.Text.Pieces

/-!
# Master/slave groups

A group has a master, which takes all writes, and slaves, among which reads are shared out. Once a session has written,
its reads go to the master too, so that it sees what it wrote.
-/

namespace SqlSharding.Sources

/-- The member of a group that serves a statement. -/
inductive Role where
  | master
  | slave
  deriving DecidableEq, Inhabited, Repr

/-- How reads are shared out among slaves. -/
inductive LoadBalance where
  | roundRobin
  | random
  deriving DecidableEq, Inhabited, Repr

namespace LoadBalance

def name : LoadBalance → String
  | roundRobin => "round_robin"
  | random => "random"

def ofJson? (j : Json) : Option LoadBalance := do
  let name ← j.toVariant?
  [roundRobin, random].find? fun balance => balance.name = name

end LoadBalance

/-- A group as plain data; the names of its slaves are separated by commas. -/
structure GroupConfig where
  name : String
  master : String
  slaves : String
  loadBalance : LoadBalance
  deriving DecidableEq, Inhabited, Repr

namespace GroupConfig

def ofJson? (j : Json) : Option GroupConfig := do
  let [name, master, slaves, balance] ← j.recordMembers? ["name", "master", "slaves", "load_balance"] | none
  return ⟨← Json.required? Json.toString? name, ← Json.required? Json.toString? master,
    ← Json.orDefault? "" Json.toString? slaves, ← Json.orDefault? .roundRobin LoadBalance.ofJson? balance⟩

/-- The names of the slaves, without the blanks around them and without empty names. -/
def slaveNames (c : GroupConfig) : List String :=
  ((Text.pieces ',' c.slaves.toList).map fun piece => String.ofList (Text.trim piece)).filter fun name => name ≠ ""

/-- The name of the master, without the blanks around it. -/
def masterName (c : GroupConfig) : String := String.ofList (Text.trim c.master.toList)

end GroupConfig

structure Group where
  name : String
  master : String
  slaves : List String
  loadBalance : LoadBalance
  /-- The number of reads that were shared out in turn. -/
  turn : Nat
  deriving DecidableEq, Inhabited, Repr

namespace Group

/-- The name of a data source, if it is known. -/
def known (isKnown : String → Bool) (name : String) : Outcome String :=
  if isKnown name then .ok name else .error (.noDataSource name)

/-- The group that a configuration describes. All its members have to be known data sources. -/
def ofConfig (c : GroupConfig) (isKnown : String → Bool) : Outcome Group := do
  let master ← known isKnown c.masterName
  let slaves ← c.slaveNames.mapM (known isKnown)
  return ⟨c.name, master, slaves, c.loadBalance, 0⟩

/-- The role that serves a statement: writes, reads after a write, and all statements of a group without slaves go to
the master. -/
def roleFor (g : Group) (kind : Sql.StatementKind) (hasWritten : Bool) : Role :=
  if kind.isWrite || hasWritten || g.slaves.isEmpty then .master else .slave

/-- The slave that is next by the load balance, and the group after that choice. -/
def nextSlave (g : Group) (chance : Nat) : Option String × Group :=
  match g.loadBalance with
  | .roundRobin => (g.slaves[g.turn % g.slaves.length]?, { g with turn := g.turn + 1 })
  | .random => (g.slaves[chance % g.slaves.length]?, g)

/-- The member that serves a role, and the group after that choice. A group without slaves has only its master. -/
def select (g : Group) (role : Role) (chance : Nat) : String × Group :=
  if role = .master || g.slaves.isEmpty then (g.master, g)
  else
    let (slave, after) := g.nextSlave chance
    (slave.getD g.master, after)

/-- All members, the master first. -/
def members (g : Group) : List String := g.master :: g.slaves

end Group

end SqlSharding.Sources
