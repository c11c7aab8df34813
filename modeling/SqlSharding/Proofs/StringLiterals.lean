import SqlSharding.Proofs.WrittenNames

/-!
# String literals

A text is written as a string by doubling the quote and, where backslashes escape, every backslash. Doubled characters come in
pairs, so the scanner never takes a quote of the text for the end or the end for a part of the text: the literal is read as this one
text, whatever comes behind it (`tokenize_stringLiteral`).
-/

namespace SqlSharding.Sql

open Text

namespace Dialect

/-- A character between two of which a string can stand. -/
def QuotesStrings (d : Dialect) (quote : Char) : Prop := quote = '\'' ∨ quote = '"' ∧ d.doubleQuotedStrings = true

/-- Whether a character has to be written twice between quotes. -/
def IsDoubled (d : Dialect) (quote c : Char) : Prop := c = quote ∨ d.backslashEscapes = true ∧ c = '\\'

instance (d : Dialect) (quote c : Char) : Decidable (d.IsDoubled quote c) := inferInstanceAs (Decidable (_ ∨ _))

/-- The characters of a text as they are written between quotes. -/
def escaped (d : Dialect) (quote : Char) (cs : List Char) : List Char :=
  cs.flatMap fun c => if d.IsDoubled quote c then [c, c] else [c]

/-- A text as a string. -/
def stringLiteral (d : Dialect) (quote : Char) (s : String) : String :=
  String.ofList (quote :: (d.escaped quote s.toList ++ [quote]))

end Dialect

variable {d : Dialect} {quote c : Char} {source r cs : List Char} {s : String} {kind : TokenKind}

theorem escaped_of_doubled (doubled : d.IsDoubled quote c) : d.escaped quote (c :: cs) = c :: c :: d.escaped quote cs := by
  rw [Dialect.escaped, List.flatMap_cons, if_pos doubled]
  rfl

theorem escaped_of_single (single : ¬ d.IsDoubled quote c) : d.escaped quote (c :: cs) = c :: d.escaped quote cs := by
  rw [Dialect.escaped, List.flatMap_cons, if_neg single]
  rfl

/-- What stands between quotes reads back as the text. A pair of quotes is read by the rule for quotes, a pair of backslashes by the
rule for escapes, and both give the one character that was doubled. -/
theorem quotedBody_escaped (ends : r.head? ≠ some quote) :
    quotedBody quote true d.backslashEscapes (d.escaped quote cs ++ quote :: r) =
      some (cs, (d.escaped quote cs).length + 1) := by
  induction cs with
  | nil =>
    cases r with
    | nil => simp [Dialect.escaped, quotedBody]
    | cons x r =>
      have other : x ≠ quote := by simpa using ends
      simp [Dialect.escaped, quotedBody, other]
  | cons c cs ih =>
    by_cases closes : c = quote
    · rw [escaped_of_doubled (.inl closes), closes, List.cons_append, List.cons_append, quotedBody, if_pos rfl, if_pos (by simp), ih]
      rfl
    · by_cases escape : d.backslashEscapes = true ∧ c = '\\'
      · obtain ⟨escapes, rfl⟩ := escape
        rw [escaped_of_doubled (.inr ⟨escapes, rfl⟩), List.cons_append, List.cons_append, quotedBody, if_neg closes,
          if_pos (by simp [escapes]), ih]
        rfl
      · rw [escaped_of_single fun doubled => doubled.elim closes escape, List.cons_append]
        obtain ⟨next, rest, split⟩ := List.exists_cons_of_ne_nil (show d.escaped quote cs ++ quote :: r ≠ [] by simp)
        rw [split] at ih ⊢
        rw [quotedBody, if_neg closes, if_neg (by simpa using escape), ih]
        rfl

theorem lexeme_of_quote (quotes : d.QuotesStrings quote) (start : Nat) (rest : List Char) :
    lexeme d start quote rest = stringLexeme d start quote rest := by
  rcases quotes with rfl | ⟨rfl, strings⟩
  · rfl
  · simp [lexeme, strings]

theorem stops_of_quote (quotes : d.QuotesStrings quote) (rest : List Char) : Stops d (quote :: rest) := by
  rcases quotes with rfl | ⟨rfl, -⟩ <;> simp [stops_cons_iff, isSpace]

/-- A text is spelled by its literal, unless the quote follows once more. -/
theorem spells_stringLiteral (quotes : d.QuotesStrings quote) (ends : r.head? ≠ some quote) :
    Spells d (d.stringLiteral quote s).toList r (.string s) := by
  rw [Dialect.stringLiteral, String.toList_ofList]
  refine ⟨stops_of_quote quotes _, quote, d.escaped quote s.toList ++ [quote], rfl, fun start => ?_⟩
  rw [lexeme_of_quote quotes, stringLexeme, List.append_assoc, List.singleton_append, quotedBody_escaped ends]
  simp

/-- A text at whose front a token is spelled has this token first, and reading goes on behind it. -/
theorem Spells.ofText {sql rest : String} (spells : Spells d sql.toList rest.toList kind) :
    TokenStream.ofText d (sql ++ rest) =
      .token ⟨kind, ⟨0, byteLength sql.toList⟩, 1, 1⟩ (TokenStream.scan d (Place.start.afterAll sql.toList) rest.toList) := by
  obtain ⟨stops, c, tail, text, front⟩ := spells
  have length : byteLength sql.toList = ((Place.start.after c).afterAll tail).offset := by
    rw [text, Place.afterAll_offset, Place.after_offset, byteLength_cons]
    simp [Place.start]
  rw [TokenStream.ofText, String.toList_append, TokenStream.scan_eq, stops .start, length, text, List.cons_append]
  dsimp only
  rw [front]
  dsimp only
  rw [List.take_left, List.drop_left]
  rfl

/-- The literal of a text is one token with this text, and it stays the first token with its own span in front of every text that does
not begin with the quote. -/
theorem tokenize_stringLiteral (quotes : d.QuotesStrings quote) (s : String) :
    tokenize d (d.stringLiteral quote s) =
        .ok [⟨.string s, ⟨0, byteLength (d.stringLiteral quote s).toList⟩, 1, 1⟩,
          Token.endAt (Place.start.afterAll (d.stringLiteral quote s).toList)] ∧
      ∀ rest : String, rest.toList.head? ≠ some quote →
        TokenStream.ofText d (d.stringLiteral quote s ++ rest) =
          .token ⟨.string s, ⟨0, byteLength (d.stringLiteral quote s).toList⟩, 1, 1⟩
            (TokenStream.scan d (Place.start.afterAll (d.stringLiteral quote s).toList) rest.toList) :=
  ⟨(spells_stringLiteral quotes (by simp)).tokenize, fun _ ends => (spells_stringLiteral quotes ends).ofText⟩

/-- A quote and a backslash at the end of the text are told apart from the closing quote, also with another token right behind. -/
theorem tokenize_stringLiteral_backslashAtEnd :
    Dialect.mysql.QuotesStrings '"' ∧ Dialect.mysql.stringLiteral '"' "é\"\\" = "\"é\"\"\\\\\"" ∧
      tokenize .mysql "\"é\"\"\\\\\"" = .ok [⟨.string "é\"\\", ⟨0, 8⟩, 1, 1⟩, Token.endAt ⟨8, 1, 8⟩] ∧
      "?".toList.head? ≠ some '"' ∧
      TokenStream.ofText .mysql ("\"é\"\"\\\\\"" ++ "?") =
        .token ⟨.string "é\"\\", ⟨0, 8⟩, 1, 1⟩ (TokenStream.scan .mysql ⟨8, 1, 8⟩ ['?']) := by
  have quotes : Dialect.mysql.QuotesStrings '"' := .inr ⟨rfl, rfl⟩
  have literal : Dialect.mysql.stringLiteral '"' "é\"\\" = "\"é\"\"\\\\\"" := by decide +kernel
  have length : byteLength "\"é\"\"\\\\\"".toList = 8 := by decide +kernel
  have ending : Place.start.afterAll "\"é\"\"\\\\\"".toList = ⟨8, 1, 8⟩ := by decide +kernel
  have ends : "?".toList.head? ≠ some '"' := by decide
  obtain ⟨alone, first⟩ := tokenize_stringLiteral quotes "é\"\\"
  have behind := first "?" ends
  rw [literal, length, ending] at alone behind
  exact ⟨quotes, literal, alone, ends, behind⟩

end SqlSharding.Sql
