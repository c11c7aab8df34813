import SqlSharding.Numeric.Shortest
import SqlSharding.Numeric.Integers

/-!
# Numbers in JSON

A number is kept as it is written. Read as an integer it is exact; read in double precision it is rounded in steps,
which can miss the nearest number when it has more than fifteen digits or a large exponent. Written from double
precision it has the shortest digits that read back.
-/

namespace SqlSharding

/-- A number as it is written: sign, digits before and after the point, and exponent. -/
structure JsonNumber where
  isNegative : Bool
  whole : List Char
  fraction : Option (List Char)
  exponent : Option Int
  deriving DecidableEq, Inhabited, Repr

namespace JsonNumber

def ofInt (i : Int) : JsonNumber := ⟨i < 0, Nat.toDigits 10 i.natAbs, none, none⟩

/-- The integer that a number is; a negative zero is none, nor is a number with a fraction or an exponent. -/
def toInt? (n : JsonNumber) : Option Int :=
  let magnitude := Text.foldDigits 0 n.whole
  if n.fraction.isSome || n.exponent.isSome || (n.isNegative && magnitude = 0) then none
  else some (if n.isNegative then -(magnitude : Int) else magnitude)

/-- Appends digits to a significand while it fits 64 bits; the digits that are left come second. -/
def takeDigits (significand : Nat) : List Char → Nat × List Char
  | [] => (significand, [])
  | c :: cs =>
    let longer := Text.foldDigits significand [c]
    if longer < nat64Bound then takeDigits longer cs else (significand, c :: cs)

/-- Multiplies by a power of ten in steps of at most 10^308, rounding after each step; there is no result past the
range of finite numbers. Three steps bring every significand to zero or past the range. -/
def scaleByTen (x : Binary64) : Nat → Int → Option Binary64
  | 0, _ => some x
  | n + 1, exponent =>
    if exponent.natAbs ≤ 308 then
      let power := Binary64.ofDecimal false 1 exponent.natAbs
      if 0 ≤ exponent then
        let product := x.mul power
        if product.isFinite then some product else none
      else some (x.div power)
    else if x.absUnits = 0 then some x
    else if 0 ≤ exponent then none
    else scaleByTen (x.div (.ofDecimal false 1 308)) n (exponent + 308)

/-- The number in double precision: the leading digits that fit 64 bits are rounded and then scaled, and the digits
after them count only by their places. Numbers past the range have no value. -/
def toBinary64? (n : JsonNumber) : Option Binary64 :=
  let (whole, droppedWhole) := takeDigits 0 n.whole
  let (significand, droppedFraction) := takeDigits whole (n.fraction.getD [])
  let taken := (n.fraction.getD []).length - droppedFraction.length
  let exponent : Int := droppedWhole.length - (taken : Int) + n.exponent.getD 0
  (scaleByTen (.ofInt significand) 4 exponent).map fun x =>
    if n.isNegative then Binary64.ofMagnitude true x.magnitude else x

/-- Which numbers are written without an exponent, by the power of ten of their leading digit, and which of two
equally near decimals is written. -/
structure Layout where
  leastPositional : Int
  greatestPositional : Int
  tie : TieRule

/-- Numbers from 10^-5 up to 10^16 are written without an exponent, and a tie goes to the even digit. -/
def layout : Layout := ⟨-5, 15, .even⟩

/-- Digits with `places` of them after the point; there is at least one digit on either side. -/
def positional (isNegative : Bool) (digits : List Char) (places : Nat) : JsonNumber :=
  let padded := List.replicate (places + 1 - digits.length) '0' ++ digits
  ⟨isNegative, padded.take (padded.length - places), some (padded.drop (padded.length - places)), none⟩

/-- A finite number. A number without an exponent shows a fraction, if only a zero. -/
def ofBinary64 (x : Binary64) : JsonNumber :=
  if x.absUnits = 0 then positional x.isNegative ['0', '0'] 1
  else
    let (digits, exponent) := Binary64.trimmedDigits (x.shortest layout.tie)
    let leading := exponent + digits.length - 1
    if leading < layout.leastPositional || layout.greatestPositional < leading then
      ⟨x.isNegative, digits.take 1, if digits.length ≤ 1 then none else some (digits.drop 1), some leading⟩
    else if 0 ≤ exponent then
      positional x.isNegative (digits ++ List.replicate (exponent.toNat + 1) '0') 1
    else positional x.isNegative digits exponent.natAbs

/-- The text of a number; an exponent always has a sign. -/
def text (n : JsonNumber) : List Char :=
  (if n.isNegative then ['-'] else []) ++ n.whole ++ n.fraction.elim [] ('.' :: ·) ++
    n.exponent.elim [] fun e => 'e' :: (if e < 0 then '-' else '+') :: Nat.toDigits 10 e.natAbs

end JsonNumber

end SqlSharding
