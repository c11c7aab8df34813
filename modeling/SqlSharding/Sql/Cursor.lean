import SqlSharding.Sql.TokenStream

/-!
# Cursors

A cursor stands on a token of a text. It knows what lies ahead and how many placeholders it has passed. Where the
text ahead holds a fault, the cursor reports it when it would step onto it, and stays.
-/

namespace SqlSharding.Sql

structure Cursor where
  dialect : Dialect
  current : Token
  ahead : TokenStream
  /-- The number of placeholders passed so far. -/
  parameterIndex : Nat
  deriving Inhabited, Repr

/-- An identifier as rewriting needs it: its name without delimiters, its place and how it is delimited. -/
structure Identifier where
  name : String
  span : Span
  quote : Option QuoteStyle
  deriving DecidableEq, Inhabited, Repr

namespace Identifier

/-- The identifier that a token is; the name is empty for other tokens. -/
def ofToken (t : Token) : Identifier :=
  match t.kind with
  | .identifier name => ⟨name, t.span, none⟩
  | .quotedIdentifier name style => ⟨name, t.span, some style⟩
  | _ => ⟨"", t.span, none⟩

end Identifier

namespace Cursor

/-- A cursor on the first token of a text. -/
def ofText (d : Dialect) (sql : String) : Except SyntaxError Cursor :=
  match TokenStream.ofText d sql with
  | .token t rest => .ok ⟨d, t, rest, 0⟩
  | .finished p => .ok ⟨d, Token.endAt p, .finished p, 0⟩
  | .fault e _ => .error e
  | .stuck e => .error e

def kind (c : Cursor) : TokenKind := c.current.kind

def isAtEnd (c : Cursor) : Bool := c.kind = .endOfInput

/-- An upper bound on the steps that are left: one for each token from the current one to the last. -/
def remaining (c : Cursor) : Nat := if c.isAtEnd then 0 else c.ahead.size + 1

/-- The kind of the next token. -/
def peek (c : Cursor) : Except SyntaxError TokenKind :=
  if c.isAtEnd then .ok .endOfInput
  else
    match c.ahead with
    | .token t _ => .ok t.kind
    | .finished _ => .ok .endOfInput
    | .fault e _ => .error e
    | .stuck e => .error e

/-- The placeholders passed once the current token is passed. -/
def nextParameterIndex (c : Cursor) : Nat :=
  if c.kind = .symbol .question then c.parameterIndex + 1 else c.parameterIndex

/-- Steps to the next token. A fault is reported once; the cursor then has it behind it. A placeholder counts as
passed even when the step meets a fault. -/
def step (c : Cursor) : Option SyntaxError × Cursor :=
  let counted := { c with parameterIndex := c.nextParameterIndex }
  if c.isAtEnd then (none, counted)
  else
    match c.ahead with
    | .token t rest => (none, { counted with current := t, ahead := rest })
    | .finished p => (none, { counted with current := Token.endAt p })
    | .fault e rest => (some e, { counted with ahead := rest })
    | .stuck e => (some e, counted)

/-- Whether the current token has the shape of the given one. -/
def check (c : Cursor) (k : TokenKind) : Bool := c.kind.sameShape k

def checkAny (c : Cursor) (ks : List TokenKind) : Bool := ks.any c.check

/-- The error of finding the current token where something else is needed. -/
def expected (c : Cursor) (what : Expectation) : SyntaxError :=
  .atToken (.expected what c.kind) c.current

end Cursor

end SqlSharding.Sql
