import SqlSharding.Json.Basic
import SqlSharding.Text.Bytes

/-!
# Reading JSON

A text is a value when it is that value between white space and nothing else.
-/

namespace SqlSharding.Json

def isSpace (c : Char) : Bool := c = ' ' || c = '\n' || c = '\t' || c = '\r'

def skipSpace (cs : List Char) : List Char := cs.dropWhile isSpace

/-- The code unit that four hexadecimal digits stand for. -/
def codeUnit? (a b c d : Char) : Option Nat :=
  if [a, b, c, d].all Text.isHexDigit then some (Text.hexNumber [a, b, c, d]) else none

def isHighSurrogate (n : Nat) : Bool := 0xD800 ≤ n && n < 0xDC00

def isLowSurrogate (n : Nat) : Bool := 0xDC00 ≤ n && n < 0xE000

/-- The character of a surrogate pair. -/
def pairedChar (high low : Nat) : Char := Char.ofNat (0x10000 + (high - 0xD800) * 0x400 + (low - 0xDC00))

/-- The character of an escape of two characters. -/
def shortEscape? : Char → Option Char
  | '"' => some '"'
  | '\\' => some '\\'
  | '/' => some '/'
  | 'b' => some '\x08'
  | 'f' => some '\x0C'
  | 'n' => some '\n'
  | 'r' => some '\r'
  | 't' => some '\t'
  | _ => none

/-- The pieces of a string after its opening quote, and the text after its closing one. A piece is a character, or
nothing for half of a surrogate pair. -/
def stringPieces? : List Char → Option (List (Option Char) × List Char)
  | [] => none
  | '"' :: rest => some ([], rest)
  | '\\' :: 'u' :: a :: b :: c :: d :: '\\' :: 'u' :: e :: f :: g :: h :: rest => do
    let first ← codeUnit? a b c d
    let second ← codeUnit? e f g h
    if isHighSurrogate first && isLowSurrogate second then
      let (pieces, after) ← stringPieces? rest
      return (some (pairedChar first second) :: pieces, after)
    else
      let piece := if isHighSurrogate first || isLowSurrogate first then none else some (Char.ofNat first)
      let (pieces, after) ← stringPieces? ('\\' :: 'u' :: e :: f :: g :: h :: rest)
      return (piece :: pieces, after)
  | '\\' :: 'u' :: a :: b :: c :: d :: rest => do
    let unit ← codeUnit? a b c d
    let piece := if isHighSurrogate unit || isLowSurrogate unit then none else some (Char.ofNat unit)
    let (pieces, after) ← stringPieces? rest
    return (piece :: pieces, after)
  | '\\' :: c :: rest => do
    let char ← shortEscape? c
    let (pieces, after) ← stringPieces? rest
    return (some char :: pieces, after)
  | c :: rest =>
    if c.toNat < 0x20 then none
    else do
      let (pieces, after) ← stringPieces? rest
      return (some c :: pieces, after)

/-- The text of pieces that are all characters. -/
def joinPieces? (pieces : List (Option Char)) : Option String := (pieces.mapM id).map String.ofList

/-- The digits before the point: a zero stands alone. -/
def wholeDigits? : List Char → Option (List Char × List Char)
  | '0' :: rest => if (rest.head?.map Char.isDigit).getD false then none else some (['0'], rest)
  | cs =>
    let digits := cs.takeWhile Char.isDigit
    if digits.isEmpty then none else some (digits, cs.drop digits.length)

/-- The digits after a point, of which there is at least one. -/
def fractionDigits? : List Char → Option (Option (List Char) × List Char)
  | '.' :: rest =>
    let digits := rest.takeWhile Char.isDigit
    if digits.isEmpty then none else some (some digits, rest.drop digits.length)
  | cs => some (none, cs)

def exponentDigits? (negative : Bool) (cs : List Char) : Option (Option Int × List Char) :=
  let digits := cs.takeWhile Char.isDigit
  if digits.isEmpty then none
  else
    let magnitude : Int := Text.foldDigits 0 digits
    some (some (if negative then -magnitude else magnitude), cs.drop digits.length)

/-- The exponent after its mark and an optional sign. -/
def exponent? : List Char → Option (Option Int × List Char)
  | c :: rest =>
    if c = 'e' || c = 'E' then
      match rest with
      | '-' :: digits => exponentDigits? true digits
      | '+' :: digits => exponentDigits? false digits
      | digits => exponentDigits? false digits
    else some (none, c :: rest)
  | [] => some (none, [])

def unsignedNumber? (negative : Bool) (cs : List Char) : Option (Json × List Char) := do
  let (whole, rest) ← wholeDigits? cs
  let (fraction, rest) ← fractionDigits? rest
  let (exponent, rest) ← exponent? rest
  return (number ⟨negative, whole, fraction, exponent⟩, rest)

/-- The rest of a text after the given characters. -/
def after? (word cs : List Char) : Option (List Char) :=
  if word.isPrefixOf cs then some (cs.drop word.length) else none

/-- An object of members whose names are all texts. -/
def ofMembers (members : List (Option String × Json)) : Json :=
  let named? (m : Option String × Json) : Option (String × Json) := m.1.map (·, m.2)
  (members.mapM named?).elim unreadable object

mutual

/-- The value at the front of a text; the depth bounds the nesting of its parts. -/
def value? : Nat → List Char → Option (Json × List Char)
  | 0, _ => none
  | depth + 1, cs =>
    match skipSpace cs with
    | [] => none
    | 'n' :: rest => (after? ['u', 'l', 'l'] rest).map (null, ·)
    | 't' :: rest => (after? ['r', 'u', 'e'] rest).map (bool true, ·)
    | 'f' :: rest => (after? ['a', 'l', 's', 'e'] rest).map (bool false, ·)
    | '"' :: rest => do
      let (pieces, rest) ← stringPieces? rest
      return ((joinPieces? pieces).elim unreadable string, rest)
    | '[' :: rest =>
      match skipSpace rest with
      | ']' :: rest => some (array [], rest)
      | rest => (items? depth rest).map fun (items, rest) => (array items, rest)
    | '{' :: rest =>
      match skipSpace rest with
      | '}' :: rest => some (object [], rest)
      | rest => (members? depth rest).map fun (members, rest) => (ofMembers members, rest)
    | '-' :: rest => unsignedNumber? true rest
    | rest => unsignedNumber? false rest

/-- The items of an array up to its closing bracket. -/
def items? : Nat → List Char → Option (List Json × List Char)
  | 0, _ => none
  | depth + 1, cs => do
    let (item, rest) ← value? depth cs
    match skipSpace rest with
    | ']' :: rest => return ([item], rest)
    | ',' :: rest =>
      let (items, rest) ← items? depth rest
      return (item :: items, rest)
    | _ => none

/-- The members of an object up to its closing brace; a name that is no text is missing. -/
def members? : Nat → List Char → Option (List (Option String × Json) × List Char)
  | 0, _ => none
  | depth + 1, cs =>
    match skipSpace cs with
    | '"' :: rest => do
      let (pieces, rest) ← stringPieces? rest
      let name? := joinPieces? pieces
      let rest ← after? [':'] (skipSpace rest)
      let (value, rest) ← value? depth rest
      match skipSpace rest with
      | '}' :: rest => return ([(name?, value)], rest)
      | ',' :: rest =>
        let (members, rest) ← members? depth rest
        return ((name?, value) :: members, rest)
      | _ => none
    | _ => none

end

/-- The value of a whole text. Each part of a value takes at least one character, so the depth suffices. -/
def ofText? (text : String) : Option Json := do
  let cs := text.toList
  let (value, rest) ← value? (2 * cs.length + 2) cs
  if (skipSpace rest).isEmpty then some value else none

end SqlSharding.Json
