import SqlSharding.Json.Number

/-!
# JSON values

Configurations, properties and event records are JSON texts. Objects keep all their members in the order of the
text.
-/

namespace SqlSharding

inductive Json where
  | null
  | bool (b : Bool)
  | number (n : JsonNumber)
  | string (s : String)
  /-- Well-formed, but no data: a string, or an object with the name of a member, that holds half of a surrogate
  pair. -/
  | unreadable
  | array (items : List Json)
  | object (members : List (String × Json))
  deriving Inhabited, Repr

namespace Json

def ofInt (i : Int) : Json := number (.ofInt i)

def ofNat (n : Nat) : Json := ofInt n

/-- A finite number as it is; an infinity or a NaN is null. -/
def ofFloat (x : Binary64) : Json := if x.isFinite then number (.ofBinary64 x) else null

/-- A value, or null in its place. -/
def ofOption (f : α → Json) (x : Option α) : Json := x.elim null f

def ofStrings (ss : List String) : Json := array (ss.map string)

end Json

end SqlSharding
