/-!
# Named entries

A table from names to entries that is listed in the order of the names.
-/

namespace SqlSharding

/-- Entries under names, in the order of the names. -/
abbrev Named (α : Type) := List (String × α)

namespace Named

/-- The entry of a name. -/
def get? (xs : Named α) (name : String) : Option α := (xs.find? fun x => x.1 = name).map (·.2)

/-- Adds an entry at its place; an entry of the same name is replaced. -/
def insert (name : String) (a : α) : Named α → Named α
  | [] => [(name, a)]
  | (other, b) :: rest =>
    if name = other then (name, a) :: rest
    else if name < other then (name, a) :: (other, b) :: rest
    else (other, b) :: insert name a rest

/-- Entries in any order, of which the last one of a name counts. -/
def ofList (xs : List (String × α)) : Named α := xs.foldl (fun named (name, a) => insert name a named) []

end Named

end SqlSharding
