import SqlSharding.Json.Reader

/-!
# Decoding JSON

Typed data from JSON values. A record is an object, of which unknown members are ignored and known ones may occur only
once, or an array that lists its members in order. Of an ignored member nothing is asked but that it is well-formed; a
record whose members depend on its variant is read as a whole first. Decoding gives nothing when a value has the wrong
shape.
-/

namespace SqlSharding.Json

def toString? : Json → Option String
  | string s => some s
  | _ => none

def toBool? : Json → Option Bool
  | bool b => some b
  | _ => none

def toInt? : Json → Option Int
  | number n => n.toInt?
  | _ => none

def toInt64? (j : Json) : Option Int64 := j.toInt?.bind Text.int64?

/-- A natural number below a bound. -/
def toNatBelow? (bound : Nat) (j : Json) : Option Nat :=
  j.toInt?.bind fun i => if 0 ≤ i && i < bound then some i.toNat else none

def toFloat? : Json → Option Binary64
  | number n => n.toInt?.elim n.toBinary64? fun i =>
      if -int64Bound ≤ i && i < nat64Bound then some (.ofInt i) else n.toBinary64?
  | _ => none

def toList? (item? : Json → Option α) : Json → Option (List α)
  | array items => items.mapM item?
  | _ => none

/-- A value that may be null. -/
def toOption? (value? : Json → Option α) : Json → Option (Option α)
  | null => some none
  | j => (value? j).map some

/-- The name of a variant without data: the bare name, or the name with a null under it. -/
def toVariant? : Json → Option String
  | string s => some s
  | object [(name, null)] => some name
  | _ => none

/-- A dictionary; of several members of one name the last one counts. -/
def toEntries? (value? : Json → Option α) : Json → Option (List (String × α))
  | object members => members.mapM fun (name, j) => (value? j).map (name, ·)
  | _ => none

/-- The member of a name, if there is at most one. -/
def uniqueMember? (members : List (String × Json)) (name : String) : Option (Option Json) :=
  match members.filter fun m => m.1 = name with
  | [] => some none
  | [m] => some (some m.2)
  | _ => none

/-- The members of a record under the given names, each of them possibly absent. -/
def recordMembers? (names : List String) : Json → Option (List (Option Json))
  | array items =>
    if items.length ≤ names.length then
      some (items.map some ++ List.replicate (names.length - items.length) none)
    else none
  | object members => names.mapM (uniqueMember? members)
  | _ => none

/-- How deep values that are read may be nested. -/
def nestingLimit : Nat := 127

/-- Whether a value can be read as a whole: it holds texts and numbers in the range of double precision, and its arrays
and objects are nested no deeper than the given number. -/
def isWhole : Nat → Json → Bool
  | _, null => true
  | _, bool _ => true
  | _, number n => n.toBinary64?.isSome
  | _, string _ => true
  | _, unreadable => false
  | depth + 1, array items => items.all (isWhole depth)
  | depth + 1, object members => members.all fun m => isWhole depth m.2
  | 0, array _ => false
  | 0, object _ => false

/-- A record that says of which variant it is: the name of the variant, which stands under the given tag or comes
first, and the record without it. -/
def variant? (tag : String) : Json → Option (String × Json)
  | array (string variant :: items) => some (variant, array items)
  | object members =>
    match uniqueMember? members tag with
    | some (some (string variant)) => some (variant, object (members.filter fun m => m.1 ≠ tag))
    | _ => none
  | _ => none

/-- The variant of a record that stands inside the given number of arrays and objects. -/
def tagged? (tag : String) (outer : Nat) (j : Json) : Option (String × Json) :=
  if j.isWhole (nestingLimit - outer) then j.variant? tag else none

/-- A member that has to be present. -/
def required? (value? : Json → Option α) (member : Option Json) : Option α := member.bind value?

/-- A member that has a default. -/
def orDefault? (default : α) (value? : Json → Option α) (member : Option Json) : Option α :=
  member.elim (some default) value?

end SqlSharding.Json
