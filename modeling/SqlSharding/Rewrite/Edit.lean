import SqlSharding.Failure
import SqlSharding.Sql.Token
import SqlSharding.Text.Bytes

/-!
# Text edits

An edit replaces a stretch of a text; an empty stretch makes it an insertion. A list of edits is checked against
the text as a whole and then applied from left to right in one pass: the edits stand in order, apart from one
another and between characters, so what lies between them is copied as it is.
-/

namespace SqlSharding.Rewrite

open Sql (Span)

structure Edit where
  span : Span
  replacement : String
  deriving DecidableEq, Inhabited, Repr

namespace Edit

/-- An edit that only adds a text. -/
def insertion (position : Nat) (text : String) : Edit := ⟨⟨position, position⟩, text⟩

end Edit

/-- What is wrong with an edit of a list. -/
inductive EditFault where
  | inverted
  | pastEnd (length : Nat)
  | splitsCharacter
  | overlaps (previousEnd : Nat)
  deriving DecidableEq, Repr

/-- The wording of a fault of the edit with the given number. -/
def EditFault.message (index : Nat) (span : Span) : EditFault → String
  | inverted => s!"edit {index} has inverted span {span.start}..{span.finish}"
  | pastEnd length => s!"edit {index} span {span.start}..{span.finish} exceeds sql length {length}"
  | splitsCharacter => s!"edit {index} span {span.start}..{span.finish} splits a character"
  | overlaps previousEnd =>
    s!"edit {index} at {span.start} overlaps or precedes the previous edit ending at {previousEnd}"

/-- What is wrong with an edit after one that ended at the given place. -/
def editFault? (text : List Char) (previousEnd : Nat) (e : Edit) : Option EditFault :=
  if e.span.finish < e.span.start then some .inverted
  else if Text.byteLength text < e.span.finish then some (.pastEnd (Text.byteLength text))
  else if !(Text.isBoundary e.span.start text && Text.isBoundary e.span.finish text) then some .splitsCharacter
  else if e.span.start < previousEnd then some (.overlaps previousEnd)
  else none

/-- Checks edits from the one with the given number on, which stand after a given place. -/
def checkFrom (text : List Char) (index previousEnd : Nat) : List Edit → Outcome Unit
  | [] => .ok ()
  | e :: rest =>
    match editFault? text previousEnd e with
    | some fault => .error (.invalidRewrite (fault.message index e.span))
    | none => checkFrom text (index + 1) e.span.finish rest

/-- Checks a list of edits against a text. -/
def checkEdits (text : List Char) (edits : List Edit) : Outcome Unit := checkFrom text 0 0 edits

/-- Applies edits to the text that is left after a given place. -/
def applyFrom (place : Nat) (text : List Char) : List Edit → List Char
  | [] => text
  | e :: rest =>
    let (before, tail) := (Text.splitAt? (e.span.start - place) text).getD (text, [])
    let (_, after) := (Text.splitAt? (e.span.finish - e.span.start) tail).getD (tail, [])
    before ++ e.replacement.toList ++ applyFrom e.span.finish after rest

/-- The text with the edits applied, if they fit it. -/
def applyEdits (text : String) (edits : List Edit) : Outcome String := do
  checkEdits text.toList edits
  return String.ofList (applyFrom 0 text.toList edits)

end SqlSharding.Rewrite
