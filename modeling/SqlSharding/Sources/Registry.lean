import SqlSharding.Named
import SqlSharding.Sources.Group

/-!
# Registries

A registry says which physical data sources stand behind a logical name: a single one, or a master/slave group.
-/

namespace SqlSharding.Sources

inductive LogicalSource where
  | single (name : String)
  | group (g : Group)
  deriving DecidableEq, Inhabited, Repr

/-- The role that serves a statement; a single data source has no roles. -/
def LogicalSource.roleFor (s : LogicalSource) (kind : Sql.StatementKind) (hasWritten : Bool) : Option Role :=
  match s with
  | single _ => none
  | group g => some (g.roleFor kind hasWritten)

/-- The physical data source that serves a role, and the logical one after that choice. -/
def LogicalSource.select (s : LogicalSource) (role : Option Role) (chance : Nat) : String × LogicalSource :=
  match s with
  | single name => (name, s)
  | group g =>
    let (member, after) := g.select (role.getD .master) chance
    (member, group after)

/-- The logical data sources, in the order of their names. -/
abbrev Registry := Named LogicalSource

namespace Registry

/-- Registers a data source under its own name. -/
def register (r : Registry) (name : String) : Registry := Named.insert name (.single name) r

/-- Registers a group under its name. -/
def registerGroup (r : Registry) (g : Group) : Registry := Named.insert g.name (.group g) r

/-- A registry of single data sources and of groups, whose members have to be known. -/
def build (singles : List String) (groups : List GroupConfig) (isKnown : String → Bool) : Outcome Registry :=
  groups.foldlM (fun r c => (Group.ofConfig c isKnown).map (registerGroup r)) (singles.foldl register [])

def names (r : Registry) : List String := r.map (·.1)

def contains (r : Registry) (name : String) : Bool := (Named.get? r name).isSome

/-- The logical data source of a name. -/
def find (r : Registry) (name : String) : Outcome LogicalSource :=
  (Named.get? r name).elim (.error (.noDataSource name)) .ok

end Registry

end SqlSharding.Sources
