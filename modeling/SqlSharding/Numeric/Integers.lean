/-!
# Whole numbers

The bounds of 64-bit numbers, 64-bit integers that stop at the ends of their range, lists of consecutive integers, and whole numbers in
decimal and in hexadecimal notation, with ASCII digits only.
-/

namespace SqlSharding

/-- Two to the power of 63, the first number past the 64-bit integers. -/
abbrev int64Bound : Nat := 9223372036854775808

/-- Two to the power of 64, the first number past the 64-bit natural numbers. -/
abbrev nat64Bound : Nat := 18446744073709551616

/-- The integers from one bound to another; none if the second is below the first. -/
def integersBetween (lo hi : Int) : List Int := (List.range (hi - lo + 1).toNat).map fun (n : Nat) => lo + n

/-- The 64-bit integer nearest to an integer. -/
def clampInt64 (i : Int) : Int64 :=
  if i < -int64Bound then Int64.minValue else if i < int64Bound then Int64.ofInt i else Int64.maxValue

namespace Text

/-! ## Decimal notation -/

/-- The number that a run of digits stands for, continuing from the digits already read. -/
def foldDigits (start : Nat) (cs : List Char) : Nat :=
  cs.foldl (fun n c => n * 10 + (c.toNat - '0'.toNat)) start

/-- A non-empty text of digits alone. -/
def readNat? (cs : List Char) : Option Nat :=
  if cs.isEmpty || !cs.all Char.isDigit then none else some (foldDigits 0 cs)

/-- A whole number with an optional sign. -/
def readInt? : List Char → Option Int
  | '-' :: cs => (readNat? cs).map fun n => -(n : Int)
  | '+' :: cs => (readNat? cs).map fun n => (n : Int)
  | cs => (readNat? cs).map fun n => (n : Int)

/-- The 64-bit integer of that value, if there is one. -/
def int64? (i : Int) : Option Int64 :=
  if -int64Bound ≤ i && i < int64Bound then some (Int64.ofInt i) else none

/-- A whole number with an optional sign that fits 64 bits. -/
def readInt64? (cs : List Char) : Option Int64 := (readInt? cs).bind int64?

/-! ## Hexadecimal notation -/

def isHexDigit (c : Char) : Bool := c.isDigit || ('a' ≤ c && c ≤ 'f') || ('A' ≤ c && c ≤ 'F')

/-- The value of a digit. -/
def hexDigit (c : Char) : Nat :=
  if c.isDigit then c.toNat - '0'.toNat else c.toLower.toNat - 'a'.toNat + 10

/-- The number that a run of digits stands for. -/
def hexNumber (cs : List Char) : Nat := cs.foldl (fun n c => n * 16 + hexDigit c) 0

/-- The digits of a number in lower case, with zeros before them up to a width. -/
def hexDigits (width n : Nat) : List Char :=
  let digits := Nat.toDigits 16 n
  List.replicate (width - digits.length) '0' ++ digits

end Text

end SqlSharding
