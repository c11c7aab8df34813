import SqlSharding.Failure
import SqlSharding.Sql.Token

/-!
# Syntax errors

Why a text is not a statement, and where. The wording of an error is a function of its cause.
-/

namespace SqlSharding.Sql

/-- What a reader looked for at the place of an error. -/
inductive Expectation where
  | token (k : TokenKind)
  | identifier
  | columnName
  | paginationBound
  | firstOrNext
  | rowOrRows
  | offsetOrFetch
  | indexOrKey
  | indexList
  | insertVerb
  | insertSource
  | statement
  | endOfStatement
  /-- One of several tokens, described by the one who asks. -/
  | described (what : String)
  deriving DecidableEq, Repr

def Expectation.text : Expectation → String
  | token k => k.display
  | identifier => "identifier"
  | columnName => "column name"
  | paginationBound => "non-negative integer or '?'"
  | firstOrNext => "FIRST or NEXT"
  | rowOrRows => "ROW or ROWS"
  | offsetOrFetch => "OFFSET or FETCH"
  | indexOrKey => "INDEX or KEY"
  | indexList => "index list"
  | insertVerb => "INSERT"
  | insertSource => "VALUES, SET or SELECT"
  | statement => "statement"
  | endOfStatement => "end of statement"
  | described what => what

/-- Why a text is not a statement. The places named in a cause are byte offsets. -/
inductive SyntaxCause where
  | unexpectedCharacter (c : Char)
  | unterminatedString (start : Nat)
  | unterminatedIdentifier (start : Nat)
  | unterminatedComment
  | emptyVariableName
  | loneExclamationMark
  | expected (what : Expectation) (found : TokenKind)
  | unbalancedParentheses
  | caseWithoutEnd
  /-- The nesting exceeds the depth that a reader was given; no reader of a whole text gives up this way. -/
  | nestingTooDeep
  deriving DecidableEq, Repr

def SyntaxCause.message : SyntaxCause → String
  | unexpectedCharacter c => s!"unexpected character '{c}'"
  | unterminatedString start => s!"unterminated string literal starting at byte {start}"
  | unterminatedIdentifier start => s!"unterminated quoted identifier starting at byte {start}"
  | unterminatedComment => "unterminated block comment"
  | emptyVariableName => "empty variable name after '@'"
  | loneExclamationMark => "unexpected '!', did you mean '!='?"
  | expected what found => s!"expected {what.text}, found {found.display}"
  | unbalancedParentheses => "unbalanced parentheses"
  | caseWithoutEnd => "CASE without END"
  | nestingTooDeep => "nesting too deep"

structure SyntaxError where
  cause : SyntaxCause
  span : Span
  line : Nat
  column : Nat
  deriving DecidableEq, Repr

namespace SyntaxError

/-- An error at a token. -/
def atToken (cause : SyntaxCause) (t : Token) : SyntaxError := ⟨cause, t.span, t.line, t.column⟩

/-- An error at a place where no token could be formed. -/
def atPlace (cause : SyntaxCause) (p : Place) : SyntaxError := ⟨cause, ⟨p.offset, p.offset⟩, p.line, p.column⟩

def message (e : SyntaxError) : String := e.cause.message

/-- The error with its line and column. -/
def display (e : SyntaxError) : String := s!"{e.line}:{e.column}: {e.message}"

/-- Whether the wording says that a token like the given one was looked for. -/
def isExpectationOf (e : SyntaxError) (k : TokenKind) : Bool := ("expected " ++ k.display).isPrefixOf e.message

/-- The error as a failure of the whole statement. -/
def toFailure (e : SyntaxError) : Failure := .malformedSql e.span.start e.line e.column e.message

end SyntaxError

end SqlSharding.Sql
