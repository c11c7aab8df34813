import SqlSharding.Failure
import SqlSharding.Numeric.Integers
import SqlSharding.Text.Pieces

/-!
# Inline lists

A short notation for many similar names. Segments are separated by commas. A segment may hold groups between a dollar
sign with an opening brace and a closing brace: a range of integers `lo..hi`, or a list of texts in brackets.
A segment stands for all its variants, the last group varying fastest.
-/

namespace SqlSharding.Routing.InlineList

/-- Why a text is not an inline list. -/
inductive Fault where
  | unterminated (text : String)
  | badRange (body segment : String)
  | unsupported (body segment : String)
  deriving DecidableEq, Repr

def Fault.message : Fault → String
  | unterminated text => s!"unterminated '$\x7b' in '{text}'"
  | badRange body segment => s!"bad range '{body}' in '{segment}'"
  | unsupported body segment => s!"unsupported inline expression '$\x7b{body}\x7d' in '{segment}'"

def Fault.toFailure (f : Fault) : Failure := .configuration f.message

/-- The characters that open a group. -/
def opener : List Char := ['$', '\x7b']

/-- The character that closes a group. -/
def closer : Char := '\x7d'

/-- Puts characters before the first of several segments. -/
def prependFirst (cs : List Char) : List (List Char) → List (List Char)
  | [] => [cs]
  | segment :: rest => (cs ++ segment) :: rest

/-- The segments of a text, cut at the commas outside groups; nothing if a group is left open. -/
def segments? : Nat → List Char → Option (List (List Char))
  | 0, [] => some [[]]
  | _ + 1, [] => none
  | depth, '$' :: '\x7b' :: cs => (segments? (depth + 1) cs).map (prependFirst opener)
  | depth + 1, '\x7d' :: cs => (segments? depth cs).map (prependFirst [closer])
  | 0, ',' :: cs => (segments? 0 cs).map ([] :: ·)
  | depth, c :: cs => (segments? depth cs).map (prependFirst [c])

/-- The text between brackets, if the whole text is in brackets. -/
def bracketed? : List Char → Option (List Char)
  | '[' :: cs => if cs.getLast? = some ']' then some cs.dropLast else none
  | _ => none

/-- The texts of a list in brackets; blanks around them do not count, nor do empty ones. -/
def listChoices (cs : List Char) : List (List Char) :=
  ((Text.pieces ',' cs).map Text.trim).filter fun piece => !piece.isEmpty

/-- The texts that a group stands for. -/
def choices (body segment : List Char) : Except Fault (List (List Char)) :=
  match bracketed? body with
  | some items => .ok (listChoices items)
  | none =>
    match Text.cut? ['.', '.'] body with
    | none => .error (.unsupported (String.ofList body) (String.ofList segment))
    | some (lo, hi) =>
      match Text.readInt64? (Text.trim lo), Text.readInt64? (Text.trim hi) with
      | some lo, some hi =>
        if lo ≤ hi then .ok ((integersBetween lo.toInt hi.toInt).map fun n => (toString n).toList)
        else .error (.badRange (String.ofList body) (String.ofList segment))
      | _, _ => .error (.badRange (String.ofList body) (String.ofList segment))

/-- The variants of a segment. -/
def variants (segment : List Char) : Except Fault (List (List Char)) :=
  match _hOpen : Text.cut? opener segment with
  | none => .ok [segment]
  | some (before, afterOpener) =>
    match _hClose : Text.cut? [closer] afterOpener with
    | none => .error (.unterminated (String.ofList segment))
    | some (body, after) => do
      let middle ← choices (Text.trim body) segment
      let tails ← variants after
      return middle.flatMap fun choice => tails.map fun tail => before ++ choice ++ tail
termination_by segment.length
decreasing_by
  have := Text.cut?_length _hOpen
  have := Text.cut?_length _hClose
  simp only [opener, List.length_cons, List.length_nil] at *
  omega

/-- The names that an inline list stands for. A list of any length is one here: a range too wide for its names to be held in memory is
outside the model. -/
def expand (text : String) : Except Fault (List String) :=
  match segments? 0 text.toList with
  | none => .error (.unterminated text)
  | some segments => do
    let named := (segments.map Text.trim).filter fun segment => !segment.isEmpty
    let expanded ← named.mapM variants
    return expanded.flatten.map String.ofList

end SqlSharding.Routing.InlineList
