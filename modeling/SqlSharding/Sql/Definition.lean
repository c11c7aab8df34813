import SqlSharding.Sql.Column

/-!
# Statements that change the schema

Only the tables matter: the words after a table name are passed without a meaning.
-/

namespace SqlSharding.Sql

namespace Dialect

/-- The words that may stand between `CREATE` and `TABLE`. -/
def wordsBeforeTable : Dialect → List TokenKind
  | mysql => [.keyword .temporary]
  | sqlServer => []
  | generic => [.keyword .global, .keyword .local, .keyword .temporary, .keyword .temp]

/-- The words that may stand between `TABLE` and the name of a new table. -/
def wordsBeforeName : Dialect → List TokenKind
  | sqlServer => []
  | _ => [.keyword .if, .keyword .not, .keyword .exists]

end Dialect

namespace Walk

/-- Whether the statement ends here. -/
def atStatementEnd : Walk Bool := do
  if ← isAtEnd then return true else check (.symbol .semicolon)

/-- Passes the rest of the statement. -/
def skipRest : Walk Unit := repeatWhile do
  if ← atStatementEnd then return false
  else
    discard advance
    return true

def createTable : Walk Unit := do
  let d := (← cursor).dialect
  discard (expect (.keyword .create))
  skipAll d.wordsBeforeTable
  discard (expect (.keyword .table))
  skipAll d.wordsBeforeName
  discard tableName
  skipRest

def dropTable : Walk Unit := do
  discard (expect (.keyword .drop))
  discard (eat (.keyword .temporary))
  discard (expect (.keyword .table))
  if ← eat (.keyword .if) then discard (expect (.keyword .exists))
  discard tableName
  repeatWhile do
    if ← eat (.symbol .comma) then
      discard tableName
      return true
    else return false
  skipRest

def truncateTable : Walk Unit := do
  discard (expect (.keyword .truncate))
  discard (eat (.keyword .table))
  discard tableName
  skipRest

/-- A change of a table; a table that a new constraint refers to belongs to the statement. -/
def alterTable : Walk Unit := do
  discard (expect (.keyword .alter))
  discard (expect (.keyword .table))
  discard tableName
  repeatWhile do
    if ← atStatementEnd then return false
    else if ← eat (.keyword .references) then
      discard tableName
      return true
    else
      discard advance
      return true

end Walk

end SqlSharding.Sql
