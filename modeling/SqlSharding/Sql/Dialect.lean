/-!
# Dialects

The dialects of SQL that statements are written in, and the points in which their lexical rules differ.
-/

namespace SqlSharding.Sql

inductive Dialect where
  | mysql
  | sqlServer
  | generic
  deriving DecidableEq, Inhabited, Repr

namespace Dialect

/-- Whether a number sign begins a comment that runs to the end of the line. -/
def hashComments : Dialect → Bool
  | mysql => true
  | _ => false

/-- Whether a backslash inside a string gives the next character another meaning. -/
def backslashEscapes : Dialect → Bool
  | mysql => true
  | _ => false

/-- Whether double quotes delimit strings; elsewhere they delimit identifiers. -/
def doubleQuotedStrings : Dialect → Bool
  | mysql => true
  | _ => false

/-- The name of a dialect in configuration texts. -/
def name : Dialect → String
  | mysql => "mysql"
  | sqlServer => "sqlserver"
  | generic => "generic"

def all : List Dialect := [mysql, sqlServer, generic]

def ofName? (s : String) : Option Dialect := all.find? fun d => d.name = s

end Dialect

/-- The kind of a statement, known from its first word. -/
inductive StatementKind where
  | select
  | insert
  | update
  | delete
  | definition
  deriving DecidableEq, Inhabited, Repr

namespace StatementKind

/-- Whether a statement only reads, so that a replica may serve it. -/
def isRead (k : StatementKind) : Bool := k = select

/-- Whether a statement writes; a change of the schema counts as a write. -/
def isWrite (k : StatementKind) : Bool := !k.isRead

/-- The name of a kind, as statements of that kind are told apart in requests. -/
def name : StatementKind → String
  | select => "select"
  | insert => "insert"
  | update => "update"
  | delete => "delete"
  | definition => "ddl"

def all : List StatementKind := [select, insert, update, delete, definition]

def ofName? (s : String) : Option StatementKind := all.find? fun k => k.name = s

/-- The kind as it is shown. -/
def display : StatementKind → String
  | select => "SELECT"
  | insert => "INSERT"
  | update => "UPDATE"
  | delete => "DELETE"
  | definition => "DDL"

end StatementKind

end SqlSharding.Sql
