import SqlSharding.Numeric.Shortest
import SqlSharding.Sql.Keyword

/-!
# Tokens

A token is the smallest unit of a statement: a literal, a name, a sign or a keyword, with the place where
it stands in the text.
-/

namespace SqlSharding.Sql

/-- How a delimited identifier is delimited. -/
inductive QuoteStyle where
  | backtick
  | bracket
  | double
  deriving DecidableEq, Inhabited, Repr

namespace QuoteStyle

/-- The character that opens a delimited identifier. -/
def opening : QuoteStyle → Char
  | backtick => '\x60'
  | bracket => '['
  | double => '"'

/-- The character that closes a delimited identifier. -/
def closing : QuoteStyle → Char
  | backtick => '\x60'
  | bracket => ']'
  | double => '"'

/-- Whether the closing character can stand in a name by being written twice. -/
def doublesClosing : QuoteStyle → Bool
  | bracket => false
  | _ => true

/-- The characters of a name as they are written between delimiters. -/
def escape (style : QuoteStyle) (name : List Char) : List Char :=
  if style.doublesClosing then name.flatMap fun c => if c = style.closing then [c, c] else [c] else name

/-- A name between delimiters. -/
def quote (style : QuoteStyle) (name : String) : String :=
  String.ofList (style.opening :: style.escape name.toList ++ [style.closing])

end QuoteStyle

/-- The signs: the placeholder, operators and punctuation. -/
inductive Symbol where
  | question
  | plus | minus | star | slash | percent
  | ampersand | pipe | caret | tilde | shiftLeft | shiftRight
  | eq | eqEq | ne | ltGt | nullSafeEq | lt | le | gt | ge
  | concat | colonEq
  | dot | comma | semicolon | leftParen | rightParen
  deriving DecidableEq, Inhabited, Repr

/-- How a sign is written. -/
def Symbol.text : Symbol → String
  | question => "?"
  | plus => "+" | minus => "-" | star => "*" | slash => "/" | percent => "%"
  | ampersand => "&" | pipe => "|" | caret => "^" | tilde => "~" | shiftLeft => "<<" | shiftRight => ">>"
  | eq => "=" | eqEq => "==" | ne => "!=" | ltGt => "<>" | nullSafeEq => "<=>" | lt => "<" | le => "<="
  | gt => ">" | ge => ">="
  | concat => "||" | colonEq => ":="
  | dot => "." | comma => "," | semicolon => ";" | leftParen => "(" | rightParen => ")"

/-- What a token is, with its content. -/
inductive TokenKind where
  | integer (i : Int64)
  /-- A number with a fraction or an exponent, or an integer that does not fit 64 bits. -/
  | float (x : Binary64)
  | string (s : String)
  | identifier (name : String)
  | quotedIdentifier (name : String) (style : QuoteStyle)
  | variable (name : String)
  | symbol (s : Symbol)
  | keyword (k : Keyword)
  | endOfInput
  deriving DecidableEq, Inhabited, Repr

namespace TokenKind

def isKeyword : TokenKind → Bool
  | keyword _ => true
  | _ => false

/-- Whether a token can name a table or a column. -/
def isIdentifier : TokenKind → Bool
  | identifier _ => true
  | quotedIdentifier .. => true
  | _ => false

/-- Whether two tokens differ at most in their content. -/
def sameShape : TokenKind → TokenKind → Bool
  | symbol s, symbol t => s = t
  | keyword k, keyword l => k = l
  | k, l => k.ctorIdx = l.ctorIdx

/-- Whether a token is the bare identifier that spells a word, in any letter case. -/
def isWord (word : String) : TokenKind → Bool
  | identifier name => Text.sameName name word
  | _ => false

/-- A token as it is named in messages. -/
def display : TokenKind → String
  | integer i => s!"integer {i.toInt}"
  | float x => "number " ++ x.toText
  | string s => s!"string '{s}'"
  | identifier name => "identifier " ++ name
  | quotedIdentifier name style => "identifier " ++ style.quote name
  | .variable name => "variable @" ++ name
  | symbol s => "'" ++ s.text ++ "'"
  | keyword k => "keyword " ++ k.text
  | endOfInput => "end of input"

end TokenKind

/-- A stretch of a text between two byte offsets; the end is not part of it. -/
structure Span where
  start : Nat
  finish : Nat
  deriving DecidableEq, Inhabited, Repr

/-- A place in a text: byte offset, line and column. Lines and columns count from one, and columns count characters. Neither
exceeds the number of characters by more than one, so up to `2 ^ 32 - 2` characters both fit 32 bits. -/
structure Place where
  offset : Nat
  line : Nat
  column : Nat
  deriving DecidableEq, Inhabited, Repr

namespace Place

def start : Place := ⟨0, 1, 1⟩

/-- The place after one more character. -/
def after (p : Place) (c : Char) : Place :=
  if c = '\n' then ⟨p.offset + c.utf8Size, p.line + 1, 1⟩ else ⟨p.offset + c.utf8Size, p.line, p.column + 1⟩

/-- The place after a text. -/
def afterAll (p : Place) (cs : List Char) : Place := cs.foldl after p

end Place

structure Token where
  kind : TokenKind
  span : Span
  line : Nat
  column : Nat
  deriving DecidableEq, Inhabited, Repr

/-- The end of a text as a token. -/
def Token.endAt (p : Place) : Token := ⟨.endOfInput, ⟨p.offset, p.offset⟩, p.line, p.column⟩

end SqlSharding.Sql
