import SqlSharding.Numeric.Integers
import SqlSharding.Numeric.Shortest
import SqlSharding.Text.Pieces
import SqlSharding.Text.Bytes

/-!
# Values

A value is bound to a placeholder of a statement, or compared with a sharding column. This module says how a value
is written, which whole number it stands for when it selects a shard, and how two values compare.
-/

namespace SqlSharding

/-- A value of one of the types that a statement can carry. -/
inductive Value where
  | null
  | integer (i : Int64)
  | float (x : Binary64)
  | text (s : String)
  | blob (bytes : List UInt8)
  deriving DecidableEq, Inhabited, Repr

namespace Value

def isNull : Value → Bool
  | null => true
  | _ => false

/-- The integer, if the value is one already. -/
def asInteger? : Value → Option Int64
  | integer i => some i
  | _ => none

/-- The text, if the value is one already. -/
def asText? : Value → Option String
  | text s => some s
  | _ => none

/-- The value as it is shown in messages: text in quotes as it is, bytes in hexadecimal. -/
def display : Value → String
  | null => "NULL"
  | integer i => toString i.toInt
  | float x => x.toText
  | text s => "'" ++ s ++ "'"
  | blob bytes => "X'" ++ String.ofList ((Text.hexOfBytes bytes).map Char.toUpper) ++ "'"

/-- The bare text of a value, by which look-up tables find it. -/
def toText : Value → String
  | null => ""
  | integer i => toString i.toInt
  | float x => x.toText
  | text s => s
  | blob bytes => String.ofList (Text.decodeLossy bytes)

/-- Writes every occurrence of a character twice. -/
def doubled (quote : Char) (cs : List Char) : List Char :=
  cs.flatMap fun c => if c = quote then [c, c] else [c]

/-- The value as a literal that can stand in a statement: a quote inside a text is written twice. -/
def toSqlLiteral : Value → String
  | text s => String.ofList ('\'' :: doubled '\'' s.toList ++ ['\''])
  | v => v.display

/-- The 64-bit integer nearest to a number in the direction of zero; numbers past the range give its ends, a NaN
gives zero. -/
def truncateToInt64 (x : Binary64) : Int64 :=
  if x.isNaN then 0
  else
    let whole : Nat := x.absUnits / Binary64.unitsPerOne
    clampInt64 (if x.isNegative then -(whole : Int) else whole)

/-- The whole number that selects a shard: an integer, a number that is equal to its truncation, or a text that is
an integer between blanks. -/
def toShardingInteger? : Value → Option Int64
  | integer i => some i
  | float x =>
    let i := truncateToInt64 x
    if x.isFinite && (Binary64.ofInt i.toInt).compare? x = some .eq then some i else none
  | text s => Text.readInt64? (Text.trim s.toList)
  | null => none
  | blob _ => none

/-- The order of an integer and a number, taken after rounding the integer; an integer is below a NaN. -/
def compareIntegerFloat (i : Int64) (x : Binary64) : Ordering :=
  ((Binary64.ofInt i.toInt).compare? x).getD .lt

/-- The order of the types: null, numbers, texts, blobs. -/
def sortClass : Value → Nat
  | null => 0
  | integer _ => 1
  | float _ => 1
  | text _ => 2
  | blob _ => 3

/-- The order of two values. Values of different types compare as their types, and two NaNs do not compare. -/
def compare? : Value → Value → Option Ordering
  | integer i, integer j => some (compare i.toInt j.toInt)
  | float x, float y => x.compare? y
  | integer i, float y => some (compareIntegerFloat i y)
  | float x, integer j => some (compareIntegerFloat j x).swap
  | text s, text t => some (compareOfLessAndEq s t)
  | blob b, blob c => some (compareOfLessAndEq b c)
  | v, w => some (compare v.sortClass w.sortClass)

/-- Whether two values compare as equal. -/
def same (v w : Value) : Bool := v.compare? w = some .eq

end Value

end SqlSharding
