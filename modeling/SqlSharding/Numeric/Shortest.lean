import SqlSharding.Numeric.Binary64

/-!
# Shortest decimal texts

A decimal text reads back as a number when it lies in the interval of reals that round to the number. Among the
decimals that read back, the one written has the fewest digits, and of those it is the nearest; each format says which
of two equally near ones it writes. Plain text writes these digits without an exponent.
-/

namespace SqlSharding

/-- The decimal `digits · 10^exponent`. -/
structure Decimal where
  digits : Nat
  exponent : Int
  deriving DecidableEq, Repr

/-- Which of two decimals is written that are equally near to a number. -/
inductive TieRule where
  | larger
  /-- The one with an even last digit. -/
  | even
  deriving DecidableEq, Repr

/-- Whether the lower one of two neighbouring decimals is written, given its digits. -/
def TieRule.choosesLower : TieRule → Nat → Bool
  | larger, _ => false
  | even, digits => digits % 2 = 0

namespace Binary64

/-- How many quarter units make up the number one. -/
def quartersPerOne : Nat := 4 * unitsPerOne

/-- The reals that round to a positive number, as bounds in quarter units; below a power of two the next number is
only half as far away. The bounds themselves round to the number when its significand is even. -/
structure Interval where
  lower : Nat
  upper : Nat
  closed : Bool

def roundingInterval (x : Binary64) : Interval where
  lower := 4 * x.absUnits - (if x.fraction = 0 && 1 < x.exponentField then 1 else 2) * Nat.pow 2 x.stepExponent
  upper := 4 * x.absUnits + 2 * Nat.pow 2 x.stepExponent
  closed := x.significand % 2 = 0

/-- The whole number `n` times `10^exponent` in quarter units, over the denominator given by `scaleOf`. -/
def scaled (n : Nat) (exponent : Int) : Nat := n * quartersPerOne * Nat.pow 10 exponent.toNat

/-- The denominator that keeps negative powers of ten whole. -/
def scaleOf (exponent : Int) : Nat := Nat.pow 10 (-exponent).toNat

/-- Whether a decimal reads back as the number that the interval belongs to. -/
def Interval.contains (i : Interval) (d : Decimal) : Bool :=
  let point := scaled d.digits d.exponent
  let scale := scaleOf d.exponent
  if i.closed then i.lower * scale ≤ point && point ≤ i.upper * scale
  else i.lower * scale < point && point < i.upper * scale

/-- The neighbours of the number on the grid of multiples of `10^exponent` that read back, the nearer one first. -/
def onGrid? (x : Binary64) (tie : TieRule) (exponent : Int) : Option Decimal :=
  let value := 4 * x.absUnits * scaleOf exponent
  let step := scaled 1 exponent
  let below : Decimal := ⟨value / step, exponent⟩
  let above : Decimal := ⟨value / step + 1, exponent⟩
  let rest := 2 * (value % step)
  let nearBelow := rest < step || (rest = step && tie.choosesLower below.digits)
  let fits := x.roundingInterval.contains
  if nearBelow && fits below then some below
  else if fits above then some above
  else if fits below then some below
  else none

/-- The exponent `e` with `10^(e-1) ≤ |x| < 10^e`, for a number other than zero. -/
def decimalExponent (x : Binary64) : Int :=
  if unitsPerOne ≤ x.absUnits then (Nat.toDigits 10 (x.absUnits / unitsPerOne)).length
  else 1 - ((Nat.toDigits 10 ((unitsPerOne - 1) / x.absUnits)).length : Int)

/-- The coarsest of the grids from `10^exponent` downward that holds a decimal reading back. -/
def firstOnGrid (x : Binary64) (tie : TieRule) : Nat → Int → Decimal
  | 0, exponent => ⟨4 * x.absUnits * scaleOf exponent / scaled 1 exponent, exponent⟩
  | n + 1, exponent => (x.onGrid? tie exponent).getD (firstOnGrid x tie n (exponent - 1))

/-- The shortest decimal that reads back as a positive number. Seventeen digits always suffice. -/
def shortest (x : Binary64) (tie : TieRule) : Decimal := firstOnGrid x tie 17 (x.decimalExponent - 1)

/-- The digits without zeros at the end, and the exponent that makes up for them. -/
def trimmedDigits (d : Decimal) : List Char × Int :=
  let digits := Nat.toDigits 10 d.digits
  let significant := (digits.reverse.dropWhile (· = '0')).reverse
  (significant, d.exponent + (digits.length - significant.length : Nat))

/-- The digits with the point at its place, without an exponent. -/
def positional (digits : List Char) (exponent : Int) : List Char :=
  if 0 ≤ exponent then digits ++ List.replicate exponent.toNat '0'
  else
    let places := exponent.natAbs
    if places < digits.length then
      digits.take (digits.length - places) ++ '.' :: digits.drop (digits.length - places)
    else '0' :: '.' :: List.replicate (places - digits.length) '0' ++ digits

def sign (x : Binary64) : List Char := if x.isNegative then ['-'] else []

/-- Of two texts that are equally near, plain text shows the larger one. -/
def textTie : TieRule := .larger

/-- The plain text of a number: never an exponent, and no fraction for a whole number. -/
def toText (x : Binary64) : String :=
  if x.isNaN then "NaN"
  else if !x.isFinite then String.ofList (x.sign ++ ['i', 'n', 'f'])
  else if x.absUnits = 0 then String.ofList (x.sign ++ ['0'])
  else
    let (digits, exponent) := trimmedDigits (x.shortest textTie)
    String.ofList (x.sign ++ positional digits exponent)

end Binary64

end SqlSharding
