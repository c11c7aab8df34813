import SqlSharding.Sql.Statement

/-!
# Walks

A walk moves a cursor over a text and fills in a statement. It ends with a result or with a syntax error, and in
both cases the cursor and the statement are as the walk left them.
-/

namespace SqlSharding.Sql

structure WalkState where
  cursor : Cursor
  statement : Statement
  deriving Inhabited, Repr

abbrev Walk := EStateM SyntaxError WalkState

namespace Walk

def cursor : Walk Cursor := fun s => .ok s.cursor s

def statement : Walk Statement := fun s => .ok s.statement s

/-- Changes the statement. -/
def record (f : Statement → Statement) : Walk Unit := fun s => .ok () { s with statement := f s.statement }

/-- The kind of the current token. -/
def kind : Walk TokenKind := fun s => .ok s.cursor.kind s

def parameterIndex : Walk Nat := fun s => .ok s.cursor.parameterIndex s

/-- Fails with a cause at the given token. -/
def failAt (t : Token) (cause : SyntaxCause) : Walk α := fun s => .error (.atToken cause t) s

/-- Fails because the current token is not the one that is needed. -/
def failExpected (what : Expectation) : Walk α := fun s => .error (s.cursor.expected what) s

/-- Gives up because of too deep nesting. -/
def failTooDeep : Walk α := fun s => .error (.atToken .nestingTooDeep s.cursor.current) s

/-- Passes the current token. -/
def advance : Walk Token := fun s =>
  match s.cursor.step with
  | (none, next) => .ok s.cursor.current { s with cursor := next }
  | (some e, next) => .error e { s with cursor := next }

/-- The kind of the token after the current one. -/
def peek : Walk TokenKind := fun s =>
  match s.cursor.peek with
  | .ok k => .ok k s
  | .error e => .error e s

def check (k : TokenKind) : Walk Bool := fun s => .ok (s.cursor.check k) s

def checkAny (ks : List TokenKind) : Walk Bool := fun s => .ok (s.cursor.checkAny ks) s

def isAtEnd : Walk Bool := fun s => .ok s.cursor.isAtEnd s

/-- Passes the current token if it has the given shape, and tells whether it did. -/
def eat (k : TokenKind) : Walk Bool := do
  if ← check k then
    discard advance
    return true
  else return false

def eatAny (ks : List TokenKind) : Walk Bool := do
  if ← checkAny ks then
    discard advance
    return true
  else return false

/-- Passes a token of the given shape, and fails on any other. -/
def expect (k : TokenKind) : Walk Token := do
  if ← check k then advance else failExpected (.token k)

def expectAny (ks : List TokenKind) (what : Expectation) : Walk Token := do
  if ← checkAny ks then advance else failExpected what

/-- Repeats a body on the value that it carries along, at most the given number of times. The body tells whether to
go on. -/
def iterate (body : σ → Walk (Bool × σ)) : Nat → σ → Walk σ
  | 0, _ => failTooDeep
  | n + 1, x => do
    let (again, y) ← body x
    if again then iterate body n y else return y

/-- Repeats a body on the value that it carries along. A body that goes on passes a token, so the tokens that are left
bound the number of rounds. -/
def repeatFrom (x : σ) (body : σ → Walk (Bool × σ)) : Walk σ := do
  iterate body ((← cursor).remaining + 1) x

/-- Repeats a body that tells whether to go on. -/
def repeatWhile (body : Walk Bool) : Walk Unit := repeatFrom () fun _ => (·, ()) <$> body

/-- Passes a run of tokens of the given shapes. -/
def skipAll (ks : List TokenKind) : Walk Unit := repeatWhile (eatAny ks)

def identifier : Walk Identifier := do
  if (← kind).isIdentifier then Identifier.ofToken <$> advance else failExpected .identifier

/-- How far one token changes the depth of parentheses. -/
def depthAfter (depth : Nat) (k : TokenKind) : Nat :=
  if k = .symbol .leftParen then depth + 1 else if k = .symbol .rightParen then depth - 1 else depth

/-- Passes tokens until the parentheses of the given depth are closed. At the end of the text it fails as it is told. -/
def closeParentheses (depth : Nat) (atEnd : Walk Unit) : Walk Unit := discard <| repeatFrom depth fun depth => do
  if ← isAtEnd then
    atEnd
    return (false, depth)
  else
    let after := depthAfter depth (← kind)
    discard advance
    return (after ≠ 0, after)

/-- Passes a group in parentheses if one begins here. -/
def skipParentheses : Walk Unit := do
  if ← check (.symbol .leftParen) then
    let opening := (← cursor).current
    closeParentheses 0 (failAt opening .unbalancedParentheses)

/-- Whether the current token is the bare word `LOCK` before `IN`, which begins a locking clause. -/
def atLock : Walk Bool := do
  if (← kind).isWord "LOCK" then return (← peek) = .keyword .in else return false

/-- Whether the current token is a join word. Before a parenthesis, `LEFT` and `RIGHT` are functions. -/
def atJoin : Walk Bool := do
  match ← kind with
  | .keyword k =>
    if k ∈ [.join, .inner, .cross, .natural, .full, .straightJoin] then return true
    else if k = .left || k = .right then return (← peek) ≠ .symbol .leftParen
    else return false
  | _ => return false

end Walk

end SqlSharding.Sql
