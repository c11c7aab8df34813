import SqlSharding.Sql.Dialect
import SqlSharding.Text.Pieces

/-!
# Keywords

The words that have a meaning of their own. Each dialect knows the common ones and some of its own; all other
words are identifiers.
-/

namespace SqlSharding.Sql

inductive Keyword where
  | all | alter | and | as | asc | between | by | case | check | constraint | create | cross | default | delete
  | desc | distinct | drop | else | end | escape | except | exists | false | for | foreign | from | full
  | global | group | having | if | in | index | inner | insert | intersect | into | is | join | key | left
  | like | local | natural | not | null | offset | on | or | order | outer | primary | references | right
  | select | set | table | temp | temporary | then | true | truncate | union | unique | update | using | values
  | when | where | with | delayed | duplicate | force | highPriority | ignore | limit | lowPriority | quick
  | replace | straightJoin | use | value | fetch | first | next | only | output | row | rows | top
  deriving DecidableEq, Inhabited, Repr

namespace Keyword

/-- The word in upper case. -/
def text : Keyword → String
  | .all => "ALL" | .alter => "ALTER" | .and => "AND" | .as => "AS" | .asc => "ASC" | .between => "BETWEEN"
  | .by => "BY" | .case => "CASE" | .check => "CHECK" | .constraint => "CONSTRAINT" | .create => "CREATE"
  | .cross => "CROSS" | .default => "DEFAULT" | .delete => "DELETE" | .desc => "DESC" | .distinct => "DISTINCT"
  | .drop => "DROP" | .else => "ELSE" | .end => "END" | .escape => "ESCAPE" | .except => "EXCEPT"
  | .exists => "EXISTS" | .false => "FALSE" | .for => "FOR" | .foreign => "FOREIGN" | .from => "FROM"
  | .full => "FULL" | .global => "GLOBAL" | .group => "GROUP" | .having => "HAVING" | .if => "IF" | .in => "IN"
  | .index => "INDEX" | .inner => "INNER" | .insert => "INSERT" | .intersect => "INTERSECT" | .into => "INTO"
  | .is => "IS" | .join => "JOIN" | .key => "KEY" | .left => "LEFT" | .like => "LIKE" | .local => "LOCAL"
  | .natural => "NATURAL" | .not => "NOT" | .null => "NULL" | .offset => "OFFSET" | .on => "ON" | .or => "OR"
  | .order => "ORDER" | .outer => "OUTER" | .primary => "PRIMARY" | .references => "REFERENCES"
  | .right => "RIGHT" | .select => "SELECT" | .set => "SET" | .table => "TABLE" | .temp => "TEMP"
  | .temporary => "TEMPORARY" | .then => "THEN" | .true => "TRUE" | .truncate => "TRUNCATE" | .union => "UNION"
  | .unique => "UNIQUE" | .update => "UPDATE" | .using => "USING" | .values => "VALUES" | .when => "WHEN"
  | .where => "WHERE" | .with => "WITH" | .delayed => "DELAYED" | .duplicate => "DUPLICATE" | .force => "FORCE"
  | .highPriority => "HIGH_PRIORITY" | .ignore => "IGNORE" | .limit => "LIMIT" | .lowPriority => "LOW_PRIORITY"
  | .quick => "QUICK" | .replace => "REPLACE" | .straightJoin => "STRAIGHT_JOIN" | .use => "USE"
  | .value => "VALUE" | .fetch => "FETCH" | .first => "FIRST" | .next => "NEXT" | .only => "ONLY"
  | .output => "OUTPUT" | .row => "ROW" | .rows => "ROWS" | .top => "TOP"

/-- The keywords of every dialect. -/
def common : List Keyword :=
  [.all, .alter, .and, .as, .asc, .between, .by, .case, .check, .constraint, .create, .cross, .default, .delete,
  .desc, .distinct, .drop, .else, .end, .escape, .except, .exists, .false, .for, .foreign, .from, .full,
  .global, .group, .having, .if, .in, .index, .inner, .insert, .intersect, .into, .is, .join, .key, .left,
  .like, .local, .natural, .not, .null, .offset, .on, .or, .order, .outer, .primary, .references, .right,
  .select, .set, .table, .temp, .temporary, .then, .true, .truncate, .union, .unique, .update, .using, .values,
  .when, .where, .with]

/-- The keywords of pagination, statement modifiers and index hints in the MySQL dialect. -/
def statementModifiers : List Keyword :=
  [.delayed, .duplicate, .force, .highPriority, .ignore, .limit, .lowPriority, .quick, .replace, .straightJoin,
  .use, .value]

/-- The keywords of row limiting and of returned rows in the SQL Server dialect. -/
def rowLimiting : List Keyword :=
  [.fetch, .first, .next, .only, .output, .row, .rows, .top]

/-- The keywords that a dialect knows beside the common ones. -/
def ofDialect : Dialect → List Keyword
  | .mysql => statementModifiers
  | .sqlServer => rowLimiting
  | .generic => .limit :: rowLimiting.filter fun k => k ≠ .top && k ≠ .output

/-- The keyword that a word is in a dialect, in any letter case. -/
def ofWord? (d : Dialect) (word : String) : Option Keyword :=
  let upper := Text.upper word
  (ofDialect d ++ common).find? fun k => k.text = upper

end Keyword

end SqlSharding.Sql
