import SqlSharding.Numeric.Integers

/-!
# Double precision numbers

A floating-point number is its 64 bits. Every number that is not a NaN is a whole number of units of
2^-1074, the smallest positive value, and `units` gives that number; the two infinities get the
numbers that would follow the largest finite ones, so `units` orders all of them. Rounding, decimal
reading and comparison are exact arithmetic on whole numbers.
-/

namespace SqlSharding

/-- A floating-point number of the 64-bit interchange format, given by its bits. -/
structure Binary64 where
  bits : UInt64
  deriving DecidableEq, Inhabited, Repr

namespace Binary64

/-- Two to the power of 52, the number of fractions of one exponent. -/
abbrev fractions : Nat := 4503599627370496

/-- The bits below the sign: exponent field and fraction. -/
def magnitude (x : Binary64) : Nat := x.bits.toNat % int64Bound

/-- The eleven bits that select the power of two. -/
def exponentField (x : Binary64) : Nat := x.magnitude / fractions

/-- The fifty-two bits after the leading digit. -/
def fraction (x : Binary64) : Nat := x.magnitude % fractions

def isNegative (x : Binary64) : Bool := int64Bound ≤ x.bits.toNat

/-- The magnitude from which on there are only infinity and the NaNs. -/
def infiniteMagnitude : Nat := 2047 * fractions

def isFinite (x : Binary64) : Bool := x.magnitude < infiniteMagnitude

def isNaN (x : Binary64) : Bool := infiniteMagnitude < x.magnitude

/-- The significand as a whole number; numbers of the smallest binade have no leading one. -/
def significand (x : Binary64) : Nat :=
  if x.exponentField = 0 then x.fraction else fractions + x.fraction

/-- The power of two that one step of the significand stands for, counted in units of 2^-1074. -/
def stepExponent (x : Binary64) : Nat := x.exponentField - 1

/-- The distance from zero in units of 2^-1074. -/
def absUnits (x : Binary64) : Nat := x.significand * Nat.pow 2 x.stepExponent

/-- The value in units of 2^-1074. -/
def units (x : Binary64) : Int := if x.isNegative then -(x.absUnits : Int) else x.absUnits

/-- How many units make up the number one. -/
def unitsPerOne : Nat := Nat.pow 2 1074

/-- The order of two numbers; nothing is comparable with a NaN. -/
def compare? (x y : Binary64) : Option Ordering :=
  if x.isNaN || y.isNaN then none else some (compare x.units y.units)

/-- The number with the given sign and magnitude bits. -/
def ofMagnitude (negative : Bool) (magnitude : Nat) : Binary64 :=
  ⟨UInt64.ofNat ((if negative then int64Bound else 0) + magnitude)⟩

/-- The quotient rounded to the nearest whole number, a half to the even neighbour. -/
def divideNearest (num den : Nat) : Nat :=
  let quotient := num / den
  let twice := 2 * (num % den)
  if twice < den then quotient
  else if den < twice then quotient + 1
  else quotient + quotient % 2

/-- The magnitude bits of the number nearest to a quotient, a half going to the even neighbour. Counting
binades upward from the smallest one, a significand that rounds up to the next power of two carries
into the exponent field by itself, and what passes the largest finite number is infinite. -/
def nearestMagnitude (num den : Nat) : Nat :=
  let whole := num * unitsPerOne / den
  let shift := Nat.log2 whole - 52
  min infiniteMagnitude (shift * fractions + divideNearest (num * unitsPerOne) (den * Nat.pow 2 shift))

/-- The number nearest to a quotient of the given sign. -/
def ofQuotient (negative : Bool) (num den : Nat) : Binary64 :=
  ofMagnitude negative (nearestMagnitude num den)

/-- The number nearest to a whole number. -/
def ofInt (i : Int) : Binary64 := ofQuotient (i < 0) i.natAbs 1

/-- The whole number that a finite number denotes, if it denotes one. -/
def toInt? (x : Binary64) : Option Int :=
  if x.isFinite && x.absUnits % unitsPerOne = 0 then
    some (if x.isNegative then -(x.absUnits / unitsPerOne : Nat) else (x.absUnits / unitsPerOne : Nat))
  else none

/-- The number nearest to `significand · 10^exponent`. A value past the range of the format is decided by its
decimal length alone, so that no power of ten is formed for it. -/
def ofDecimal (negative : Bool) (significand : Nat) (exponent : Int) : Binary64 :=
  let length : Int := (Nat.toDigits 10 significand).length + exponent
  if significand = 0 || length < -330 then ofMagnitude negative 0
  else if 310 < length then ofMagnitude negative infiniteMagnitude
  else if exponent < 0 then ofQuotient negative significand (Nat.pow 10 exponent.natAbs)
  else ofQuotient negative (significand * Nat.pow 10 exponent.natAbs) 1

/-- The product, rounded to nearest. -/
def mul (x y : Binary64) : Binary64 :=
  ofQuotient (x.isNegative != y.isNegative) (x.absUnits * y.absUnits) (unitsPerOne * unitsPerOne)

/-- The quotient by a number other than zero, rounded to nearest. -/
def div (x y : Binary64) : Binary64 :=
  ofQuotient (x.isNegative != y.isNegative) x.absUnits y.absUnits

/-- The number of the opposite sign. -/
def neg (x : Binary64) : Binary64 := ⟨x.bits ^^^ 0x8000000000000000⟩

def infinity : Binary64 := ofMagnitude false infiniteMagnitude

end Binary64

end SqlSharding
