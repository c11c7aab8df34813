import SqlSharding.Physical.Call
import SqlSharding.Sources.Group

/-!
# Cached connections

A session keeps the connections that it has opened: at most one for each logical data source and role, in the order of
the logical names, the master before the slave.
-/

namespace SqlSharding.Session

open Physical (Handle)
open Sources (Role)

/-- What a connection was opened for. A single data source has no role. -/
structure CacheKey where
  logical : String
  role : Option Role
  deriving DecidableEq, Inhabited, Repr

namespace CacheKey

/-- The place of a role among the roles of one data source. -/
def roleRank : Option Role → Nat
  | none => 0
  | some .master => 1
  | some .slave => 2

/-- The order of the keys: by logical name, then by role. -/
def before (a b : CacheKey) : Bool :=
  a.logical < b.logical || (a.logical = b.logical && roleRank a.role < roleRank b.role)

end CacheKey

/-- The cached connections, in the order of their keys. -/
abbrev Cache := List (CacheKey × Handle)

namespace Cache

/-- The connection under a key. -/
def get? (c : Cache) (key : CacheKey) : Option Handle := (c.find? fun entry => entry.1 = key).map (·.2)

/-- Adds a connection at its place; one under the same key is replaced. -/
def insert (key : CacheKey) (h : Handle) : Cache → Cache
  | [] => [(key, h)]
  | entry :: rest =>
    if key = entry.1 then (key, h) :: rest
    else if key.before entry.1 then (key, h) :: entry :: rest
    else entry :: insert key h rest

/-- Removes a connection. -/
def remove (c : Cache) (h : Handle) : Cache := c.eraseP fun entry => entry.2 = h

/-- The connections, in the order of their keys. -/
def handles (c : Cache) : List Handle := c.map (·.2)

end Cache

end SqlSharding.Session
