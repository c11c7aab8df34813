import SqlSharding.Sql.Definition
import SqlSharding.Sql.Modification

/-!
# Reading a statement

A text is a statement when one statement, which a semicolon may end, is all that it holds.
-/

namespace SqlSharding.Sql

/-- The kind of the statement that a token begins. -/
def StatementKind.ofFirst? : TokenKind → Option StatementKind
  | .symbol .leftParen => some .select
  | .keyword .select => some .select
  | .keyword .insert => some .insert
  | .keyword .replace => some .insert
  | .keyword .update => some .update
  | .keyword .delete => some .delete
  | .keyword k => if k ∈ [.create, .drop, .truncate, .alter] then some .definition else none
  | _ => none

namespace Walk

/-- Passes a change of the schema, known by its first word. -/
def definitionStatement : Walk Unit := do
  if ← check (.keyword .create) then createTable
  else if ← check (.keyword .drop) then dropTable
  else if ← check (.keyword .truncate) then truncateTable
  else alterTable

/-- Passes a statement of the given kind. -/
def statementOf : StatementKind → Walk Unit
  | .select => query true
  | .insert => insertStatement
  | .update => updateStatement
  | .delete => deleteStatement
  | .definition => definitionStatement

/-- Passes a statement and all that may follow it. -/
def wholeStatement (kind : StatementKind) : Walk Unit := do
  statementOf kind
  discard (eat (.symbol .semicolon))
  if !(← isAtEnd) then failExpected .endOfStatement

end Walk

/-- The statement that a text is. -/
def parse (d : Dialect) (sql : String) : Except SyntaxError Statement := do
  let c ← Cursor.ofText d sql
  match StatementKind.ofFirst? c.kind with
  | none => throw (c.expected .statement)
  | some kind =>
    match (Walk.wholeStatement kind).run ⟨c, .ofKind kind⟩ with
    | .ok _ s => return s.statement.finish s.cursor.parameterIndex
    | .error e _ => throw e

end SqlSharding.Sql
