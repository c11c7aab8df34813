import SqlSharding.Sql.SyntaxError
import SqlSharding.Numeric.Integers
import SqlSharding.Text.Bytes

/-!
# Token streams

The tokens of a text, one after the other, each found after a gap of white space and comments. Where no token can
be formed there is a fault: reading goes on behind the characters that the fault took up, except that an
unexpected character takes up nothing, so that the stream is stuck there.
-/

namespace SqlSharding.Sql

inductive TokenStream where
  | token (t : Token) (rest : TokenStream)
  | fault (e : SyntaxError) (rest : TokenStream)
  | stuck (e : SyntaxError)
  | finished (p : Place)
  deriving Inhabited, Repr

/-! ## Gaps -/

/-- The white space of statements, which is ASCII only. -/
def isSpace (c : Char) : Bool := c = ' ' || c = '\t' || c = '\n' || c = '\x0C' || c = '\r'

/-- Where in a gap a character stands: outside comments, in a comment that ends with its line, or inside nested
block comments, the outermost of which began at the given place. Each of the comments around it took two characters to
open, so up to `2 ^ 32` characters their number fits 32 bits. -/
inductive GapState where
  | outside
  | line
  | block (outer : Nat) (opened : Place)

/-- Skips white space and comments. The result is the place and the text of what follows, or the place of a block
comment that is never closed. -/
def skipGap (d : Dialect) : GapState → Place → List Char → Except (Place × Place) (Place × List Char)
  | .outside, p, '-' :: '-' :: rest => skipGap d .line (p.afterAll ['-', '-']) rest
  | .outside, p, '/' :: '*' :: rest => skipGap d (.block 0 p) (p.afterAll ['/', '*']) rest
  | .outside, p, c :: rest =>
    if isSpace c then skipGap d .outside (p.after c) rest
    else if c = '#' && d.hashComments then skipGap d .line (p.after c) rest
    else .ok (p, c :: rest)
  | .line, p, c :: rest => skipGap d (if c = '\n' then .outside else .line) (p.after c) rest
  | .block outer opened, p, '/' :: '*' :: rest => skipGap d (.block (outer + 1) opened) (p.afterAll ['/', '*']) rest
  | .block 0 _, p, '*' :: '/' :: rest => skipGap d .outside (p.afterAll ['*', '/']) rest
  | .block (outer + 1) opened, p, '*' :: '/' :: rest => skipGap d (.block outer opened) (p.afterAll ['*', '/']) rest
  | .block outer opened, p, c :: rest => skipGap d (.block outer opened) (p.after c) rest
  | .block _ opened, p, [] => .error (opened, p)
  | .outside, p, [] => .ok (p, [])
  | .line, p, [] => .ok (p, [])

/-! ## Lexemes -/

/-- What stands at the front of a text: a token, or a fault that takes up characters, or one that takes up none. The
counts are of characters after the first. -/
inductive Lexeme where
  | token (kind : TokenKind) (more : Nat)
  | fault (cause : SyntaxCause) (more : Nat)
  | stuck (cause : SyntaxCause)

/-- The meaning of a character after a backslash. -/
def unescape (c : Char) : Char :=
  if c = 'n' then '\n' else if c = 't' then '\t' else if c = 'r' then '\r' else if c = '0' then '\x00' else c

/-- The content of a quoted text up to its closing character, and how many characters it takes with that one. The
closing character may stand in it by being written twice, and a backslash may escape the next character. -/
def quotedBody (close : Char) (doubles escapes : Bool) : List Char → Option (List Char × Nat)
  | [] => none
  | [c] => if c = close then some ([], 1) else none
  | c :: next :: rest =>
    if c = close then
      if doubles && next = close then (quotedBody close doubles escapes rest).map fun (s, n) => (close :: s, n + 2)
      else some ([], 1)
    else if escapes && c = '\\' then
      (quotedBody close doubles escapes rest).map fun (s, n) => (unescape next :: s, n + 2)
    else (quotedBody close doubles escapes (next :: rest)).map fun (s, n) => (c :: s, n + 1)

/-- A string after its opening quote. -/
def stringLexeme (d : Dialect) (start : Nat) (quote : Char) (rest : List Char) : Lexeme :=
  match quotedBody quote true d.backslashEscapes rest with
  | some (s, n) => .token (.string (String.ofList s)) n
  | none => .fault (.unterminatedString start) rest.length

/-- A delimited identifier after its opening character. -/
def quotedIdentifierLexeme (start : Nat) (style : QuoteStyle) (rest : List Char) : Lexeme :=
  match quotedBody style.closing style.doublesClosing false rest with
  | some (s, n) => .token (.quotedIdentifier (String.ofList s) style) n
  | none => .fault (.unterminatedIdentifier start) rest.length

/-- The digits after an exponent mark with an optional sign, if there are any; the first part is the exponent. -/
def exponentPart? : List Char → Option (Int × Nat)
  | '-' :: cs =>
    let digits := cs.takeWhile Char.isDigit
    if digits.isEmpty then none else some (-(Text.foldDigits 0 digits : Int), digits.length + 1)
  | '+' :: cs =>
    let digits := cs.takeWhile Char.isDigit
    if digits.isEmpty then none else some (Text.foldDigits 0 digits, digits.length + 1)
  | cs =>
    let digits := cs.takeWhile Char.isDigit
    if digits.isEmpty then none else some (Text.foldDigits 0 digits, digits.length)

/-- A hexadecimal integer at the front of a text; one that does not fit 64 bits is infinite. -/
def hexNumber? : List Char → Option (TokenKind × Nat)
  | '0' :: x :: rest =>
    let digits := rest.takeWhile Text.isHexDigit
    if (x = 'x' || x = 'X') && !digits.isEmpty then
      let kind := (Text.int64? (Text.hexNumber digits)).elim (.float .infinity) .integer
      some (kind, digits.length + 2)
    else none
  | _ => none

/-- The fraction after a point, if a digit follows the point. -/
def fractionPart? : List Char → Option (List Char)
  | '.' :: cs =>
    let digits := cs.takeWhile Char.isDigit
    if digits.isEmpty then none else some digits
  | _ => none

/-- The exponent after its mark, if digits follow, with the number of characters that it takes. -/
def markedExponent? : List Char → Option (Int × Nat)
  | c :: cs => if c = 'e' || c = 'E' then (exponentPart? cs).map fun (e, n) => (e, n + 1) else none
  | [] => none

/-- A decimal number at the front of a text, and how many characters it takes. Without fraction and exponent it is an
integer if it fits 64 bits. -/
def decimalNumber (cs : List Char) : TokenKind × Nat :=
  let whole := cs.takeWhile Char.isDigit
  let afterWhole := cs.drop whole.length
  let fraction? := fractionPart? afterWhole
  let fraction := fraction?.getD []
  let fractionLength := fraction?.elim 0 fun digits => digits.length + 1
  let exponent? := markedExponent? (afterWhole.drop fractionLength)
  let significand := Text.foldDigits 0 (whole ++ fraction)
  let exponent := (exponent?.elim 0 (·.1)) - (fraction.length : Int)
  let length := whole.length + fractionLength + exponent?.elim 0 (·.2)
  let float := TokenKind.float (Binary64.ofDecimal false significand exponent)
  let isInteger := fraction?.isNone && exponent?.isNone
  (if isInteger then (Text.int64? significand).elim float .integer else float, length)

/-- A number at the front of a text. -/
def numberLexeme (cs : List Char) : Lexeme :=
  let (kind, length) := (hexNumber? cs).getD (decimalNumber cs)
  .token kind (length - 1)

def isAsciiAlphanumeric (c : Char) : Bool := c.isAlpha || c.isDigit

/-- Whether a character can begin a word; all characters beyond ASCII can. -/
def isWordStart (c : Char) : Bool := c.isAlpha || c = '_' || 0x80 ≤ c.toNat

def isWordPart (c : Char) : Bool := isAsciiAlphanumeric c || c = '_' || c = '$' || 0x80 ≤ c.toNat

def isVariablePart (c : Char) : Bool := isAsciiAlphanumeric c || c = '_' || c = '$' || c = '.'

/-- A keyword or a bare identifier. -/
def wordLexeme (d : Dialect) (first : Char) (rest : List Char) : Lexeme :=
  let tail := rest.takeWhile isWordPart
  let word := String.ofList (first :: tail)
  .token ((Keyword.ofWord? d word).elim (.identifier word) .keyword) tail.length

/-- A variable after its at sign; a second at sign belongs to the name. -/
def variableLexeme (rest : List Char) : Lexeme :=
  let marks := if rest.head? = some '@' then ['@'] else []
  let name := (rest.drop marks.length).takeWhile isVariablePart
  if name.isEmpty then .fault .emptyVariableName marks.length
  else .token (.variable (String.ofList (marks ++ name))) (marks.length + name.length)

/-- The sign at the front of a text, the longest one that fits, with the number of characters after the first. -/
def symbol? : Char → List Char → Option (Symbol × Nat)
  | '<', '=' :: '>' :: _ => some (.nullSafeEq, 2)
  | '<', '=' :: _ => some (.le, 1)
  | '<', '>' :: _ => some (.ltGt, 1)
  | '<', '<' :: _ => some (.shiftLeft, 1)
  | '<', _ => some (.lt, 0)
  | '>', '=' :: _ => some (.ge, 1)
  | '>', '>' :: _ => some (.shiftRight, 1)
  | '>', _ => some (.gt, 0)
  | '=', '=' :: _ => some (.eqEq, 1)
  | '=', _ => some (.eq, 0)
  | '!', '=' :: _ => some (.ne, 1)
  | '|', '|' :: _ => some (.concat, 1)
  | '|', _ => some (.pipe, 0)
  | ':', '=' :: _ => some (.colonEq, 1)
  | '?', _ => some (.question, 0)
  | '+', _ => some (.plus, 0)
  | '-', _ => some (.minus, 0)
  | '*', _ => some (.star, 0)
  | '/', _ => some (.slash, 0)
  | '%', _ => some (.percent, 0)
  | '&', _ => some (.ampersand, 0)
  | '^', _ => some (.caret, 0)
  | '~', _ => some (.tilde, 0)
  | '.', _ => some (.dot, 0)
  | ',', _ => some (.comma, 0)
  | ';', _ => some (.semicolon, 0)
  | '(', _ => some (.leftParen, 0)
  | ')', _ => some (.rightParen, 0)
  | _, _ => none

/-- The lexeme that a character begins, given the byte offset where it stands and the text that follows it. -/
def lexeme (d : Dialect) (start : Nat) (c : Char) (rest : List Char) : Lexeme :=
  if c = '\'' then stringLexeme d start c rest
  else if c = '"' && d.doubleQuotedStrings then stringLexeme d start c rest
  else if c = '"' then quotedIdentifierLexeme start .double rest
  else if c = '\x60' then quotedIdentifierLexeme start .backtick rest
  else if c = '[' then quotedIdentifierLexeme start .bracket rest
  else if c.isDigit || (c = '.' && (rest.head?.map Char.isDigit).getD false) then numberLexeme (c :: rest)
  else if isWordStart c then wordLexeme d c rest
  else if c = '@' then variableLexeme rest
  else
    match symbol? c rest with
    | some (s, more) => .token (.symbol s) more
    | none =>
      if c = '!' then .fault .loneExclamationMark 0
      else if c = ':' then .fault (.unexpectedCharacter c) 0
      else .stuck (.unexpectedCharacter c)

/-! ## Streams -/

theorem skipGap_length_le (d : Dialect) (state : GapState) (p q : Place) (cs rest : List Char)
    (h : skipGap d state p cs = .ok (q, rest)) : rest.length ≤ cs.length := by
  fun_induction skipGap d state p cs <;> grind

namespace TokenStream

/-- The tokens of a text that begins at the given place. -/
def scan (d : Dialect) (p : Place) (cs : List Char) : TokenStream :=
  match _h : skipGap d .outside p cs with
  | .error (opened, ending) => .fault (.atPlace .unterminatedComment opened) (.finished ending)
  | .ok (q, []) => .finished q
  | .ok (q, c :: rest) =>
    match lexeme d q.offset c rest with
    | .token kind more =>
      let after := (q.after c).afterAll (rest.take more)
      .token ⟨kind, ⟨q.offset, after.offset⟩, q.line, q.column⟩ (scan d after (rest.drop more))
    | .fault cause more =>
      .fault (.atPlace cause q) (scan d ((q.after c).afterAll (rest.take more)) (rest.drop more))
    | .stuck cause => .stuck (.atPlace cause q)
termination_by cs.length
decreasing_by
  all_goals
    have := skipGap_length_le d .outside p q cs (c :: rest) _h
    simp only [List.length_cons, List.length_drop] at *
    omega

def ofText (d : Dialect) (sql : String) : TokenStream := scan d .start sql.toList

/-- All tokens with the end of the text, or the first fault. -/
def toList? : TokenStream → Except SyntaxError (List Token)
  | token t rest => (toList? rest).map (t :: ·)
  | fault e _ => .error e
  | stuck e => .error e
  | finished p => .ok [Token.endAt p]

/-- The number of tokens and faults that are left. -/
def size : TokenStream → Nat
  | token _ rest => rest.size + 1
  | fault _ rest => rest.size + 1
  | stuck _ => 0
  | finished _ => 0

end TokenStream

/-- All tokens of a text with its end, or the first syntax error. -/
def tokenize (d : Dialect) (sql : String) : Except SyntaxError (List Token) := (TokenStream.ofText d sql).toList?

end SqlSharding.Sql
