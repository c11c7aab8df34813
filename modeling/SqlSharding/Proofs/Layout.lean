import SqlSharding.Sql.TokenStream
import SqlSharding.Proofs.Cursors
import SqlSharding.Text.Bytes

/-!
# The layout of tokens

Every token is a stretch of the text behind a gap, and the tokens stand one behind the other. So their spans lie between
characters, none is empty, and no two of them share a byte.
-/

namespace SqlSharding

/-! ## Byte offsets -/

namespace Text

variable {before after : List Char}

@[simp] theorem byteLength_nil : byteLength [] = 0 := rfl

@[simp] theorem byteLength_cons (c : Char) (cs : List Char) : byteLength (c :: cs) = c.utf8Size + byteLength cs := rfl

@[simp] theorem byteLength_append : byteLength (before ++ after) = byteLength before + byteLength after := by
  induction before with
  | nil => simp
  | cons c cs ih => simp only [List.cons_append, byteLength_cons, ih, Nat.add_assoc]

theorem byteLength_pos (nonempty : before ≠ []) : 0 < byteLength before := by
  cases before with
  | nil => exact absurd rfl nonempty
  | cons c cs =>
    have := c.utf8Size_pos
    rw [byteLength_cons]
    omega

/-- A text is cut where its first part ends. -/
theorem splitAt?_byteLength : splitAt? (byteLength before) (before ++ after) = some (before, after) := by
  induction before with
  | nil => cases after <;> rfl
  | cons c cs ih =>
    obtain ⟨n, size⟩ : ∃ n, byteLength (c :: cs) = n + 1 := Nat.exists_eq_succ_of_ne_zero (Nat.ne_of_gt (byteLength_pos (List.cons_ne_nil c cs)))
    have fits : c.utf8Size ≤ n + 1 := by
      rw [← size, byteLength_cons]
      omega
    have left : n + 1 - c.utf8Size = byteLength cs := by
      rw [← size, byteLength_cons]
      omega
    rw [size, List.cons_append, splitAt?, if_pos fits, left, ih]
    rfl

theorem isBoundary_byteLength : isBoundary (byteLength before) (before ++ after) = true := by
  rw [isBoundary, splitAt?_byteLength]
  rfl

end Text

namespace Sql

open Text

/-! ## Places -/

theorem Place.after_offset (p : Place) (c : Char) : (p.after c).offset = p.offset + c.utf8Size := by
  rw [Place.after]
  split <;> rfl

@[simp] theorem Place.afterAll_offset (p : Place) (cs : List Char) : (p.afterAll cs).offset = p.offset + byteLength cs := by
  induction cs generalizing p with
  | nil => rfl
  | cons c cs ih =>
    have := ih (p.after c)
    rw [Place.after_offset] at this
    rw [byteLength_cons, ← Nat.add_assoc]
    exact this

theorem Place.afterAll_append (p : Place) (cs ds : List Char) : p.afterAll (cs ++ ds) = (p.afterAll cs).afterAll ds :=
  List.foldl_append

/-- A gap is a stretch at the front of the text. -/
theorem exists_gap_of_skipGap {d : Dialect} {state : GapState} {p q : Place} {cs rest : List Char}
    (skipped : skipGap d state p cs = .ok (q, rest)) : ∃ gap, cs = gap ++ rest ∧ q = p.afterAll gap := by
  fun_induction skipGap d state p cs with
  | case5 p c cs =>
    cases skipped
    exact ⟨[], rfl, rfl⟩
  | case11 => cases skipped
  | case12 | case13 =>
    cases skipped
    exact ⟨[], rfl, rfl⟩
  | case1 p cs ih =>
    obtain ⟨gap, rfl, rfl⟩ := ih skipped
    exact ⟨'-' :: '-' :: gap, rfl, rfl⟩
  | case2 p cs ih | case7 _ _ p cs ih =>
    obtain ⟨gap, rfl, rfl⟩ := ih skipped
    exact ⟨'/' :: '*' :: gap, rfl, rfl⟩
  | case8 _ p cs ih | case9 _ _ p cs ih =>
    obtain ⟨gap, rfl, rfl⟩ := ih skipped
    exact ⟨'*' :: '/' :: gap, rfl, rfl⟩
  | case3 p c cs _ _ _ ih | case4 p c cs _ _ _ _ ih | case6 p c cs ih | case10 _ _ p c cs _ _ _ ih =>
    obtain ⟨gap, rfl, rfl⟩ := ih skipped
    exact ⟨c :: gap, rfl, rfl⟩

/-! ## Reading tokens -/

/-- Reading a text from a place on gives some tokens, up to the place where the text ends. -/
inductive Reads (d : Dialect) : Place → List Char → List Token → Place → Prop
  | done {p q : Place} {cs : List Char} (gap : skipGap d .outside p cs = .ok (q, [])) : Reads d p cs [] q
  | next {p q e : Place} {cs rest : List Char} {c : Char} {kind : TokenKind} {more : Nat} {ts : List Token}
    (gap : skipGap d .outside p cs = .ok (q, c :: rest)) (front : lexeme d q.offset c rest = .token kind more)
    (tail : Reads d ((q.after c).afterAll (rest.take more)) (rest.drop more) ts e) :
    Reads d p cs (⟨kind, ⟨q.offset, ((q.after c).afterAll (rest.take more)).offset⟩, q.line, q.column⟩ :: ts) e

/-- One step of a scan. -/
theorem TokenStream.scan_eq (d : Dialect) (p : Place) (cs : List Char) : scan d p cs =
    match skipGap d .outside p cs with
    | .error (opened, ending) => .fault (.atPlace .unterminatedComment opened) (.finished ending)
    | .ok (q, []) => .finished q
    | .ok (q, c :: rest) =>
      match lexeme d q.offset c rest with
      | .token kind more =>
        let after := (q.after c).afterAll (rest.take more)
        .token ⟨kind, ⟨q.offset, after.offset⟩, q.line, q.column⟩ (scan d after (rest.drop more))
      | .fault cause more => .fault (.atPlace cause q) (scan d ((q.after c).afterAll (rest.take more)) (rest.drop more))
      | .stuck cause => .stuck (.atPlace cause q) := by
  rw [scan]
  split
  · next gap => rw [gap]
  · next gap => rw [gap]
  · next gap => exact gap ▸ rfl

/-- A stream of tokens alone is what reading the text gives. -/
theorem reads_of_scan {d : Dialect} {p e : Place} {cs : List Char} {ts : List Token}
    (scanned : TokenStream.scan d p cs = .ofTokens e ts) : Reads d p cs ts e := by
  induction ts generalizing p cs with
  | nil =>
    rw [TokenStream.scan_eq] at scanned
    split at scanned
    · cases scanned
    · next gap => cases scanned; exact .done gap
    · split at scanned <;> cases scanned
  | cons t ts ih =>
    rw [TokenStream.scan_eq] at scanned
    split at scanned
    · cases scanned
    · cases scanned
    · next gap =>
      split at scanned
      · next front =>
        injection scanned with head tail
        exact head ▸ .next gap front (ih tail)
      · cases scanned
      · cases scanned

theorem scan_of_reads {d : Dialect} {p e : Place} {cs : List Char} {ts : List Token} (reads : Reads d p cs ts e) :
    TokenStream.scan d p cs = .ofTokens e ts := by
  induction reads with
  | done gap => rw [TokenStream.scan_eq, gap]; rfl
  | next gap front tail ih =>
    rw [TokenStream.scan_eq, gap]
    dsimp only
    rw [front]
    dsimp only
    rw [ih]
    rfl

/-- The tokens of a text end with the place where it ends. -/
theorem tokenize_of_reads {d : Dialect} {p : Place} {sql : String} {ts : List Token} (reads : Reads d .start sql.toList ts p) :
    tokenize d sql = .ok (ts ++ [Token.endAt p]) := by
  rw [tokenize, TokenStream.ofText, scan_of_reads reads, TokenStream.toList?_ofTokens]

theorem Token.endAt_injective {p q : Place} (same : endAt p = endAt q) : p = q := by
  obtain ⟨offset, line, column⟩ := p
  obtain ⟨offset', line', column'⟩ := q
  simpa [endAt] using same

theorem TokenStream.eq_ofTokens {stream : TokenStream} {p : Place} {ts : List Token}
    (listed : stream.toList? = .ok (ts ++ [Token.endAt p])) : stream = .ofTokens p ts := by
  induction stream generalizing ts with
  | token t rest ih =>
    rw [toList?] at listed
    cases tail : rest.toList? with
    | error => simp [tail, Except.map] at listed
    | ok us =>
      simp only [tail, Except.map, Except.ok.injEq] at listed
      cases ts with
      | nil =>
        obtain rfl : us = [] := by simpa using (List.cons.inj listed).2
        cases rest <;> simp [toList?, Except.map] at tail
        split at tail <;> simp at tail
      | cons u ts =>
        obtain ⟨rfl, rfl⟩ := List.cons.inj listed
        rw [ofTokens, ih tail]
  | finished q =>
    cases ts with
    | nil =>
      have same : Token.endAt q = Token.endAt p := by simpa [toList?] using listed
      rw [Token.endAt_injective same]
      rfl
    | cons u ts => simp [toList?] at listed
  | fault | stuck => cases listed

/-- A text with a list of tokens is read as that list. -/
theorem reads_of_tokenize {d : Dialect} {p : Place} {sql : String} {ts : List Token}
    (tokens : tokenize d sql = .ok (ts ++ [Token.endAt p])) : Reads d .start sql.toList ts p :=
  reads_of_scan (TokenStream.eq_ofTokens tokens)

/-- Only one list of tokens is read from a text. -/
theorem Reads.eq_of_tokenize {d : Dialect} {p e : Place} {sql : String} {ts us : List Token}
    (reads : Reads d .start sql.toList ts p) (tokens : tokenize d sql = .ok (us ++ [Token.endAt e])) : ts = us := by
  rw [tokenize_of_reads reads] at tokens
  exact (List.append_inj' (Except.ok.inj tokens) rfl).1

theorem Reads.end_eq_of_tokenize {d : Dialect} {p e : Place} {sql : String} {ts us : List Token}
    (reads : Reads d .start sql.toList ts p) (tokens : tokenize d sql = .ok (us ++ [Token.endAt e])) : p = e := by
  rw [tokenize_of_reads reads] at tokens
  exact Token.endAt_injective (List.singleton_inj.mp (List.append_inj' (Except.ok.inj tokens) rfl).2)

/-! ## Where tokens come from -/

def TokenKind.isNumber : TokenKind → Bool
  | integer _ => true
  | float _ => true
  | _ => false

theorem numberLexeme_isNumber {cs : List Char} {kind : TokenKind} {more : Nat}
    (read : numberLexeme cs = .token kind more) : kind.isNumber = true := by
  have isKind : ((hexNumber? cs).getD (decimalNumber cs)).1 = kind := (Lexeme.token.inj read).1
  have fitting (number : Option Int64) (x : Binary64) : (number.elim (.float x) TokenKind.integer).isNumber = true := by
    cases number <;> rfl
  rw [← isKind]
  cases found : hexNumber? cs with
  | none =>
    rw [Option.getD_none]
    unfold decimalNumber
    dsimp only
    split
    · exact fitting _ _
    · rfl
  | some number =>
    rw [Option.getD_some]
    unfold hexNumber? at found
    split at found
    · dsimp only at found
      split at found
      · simp only [Option.some.injEq] at found
        rw [← found]
        dsimp only
        exact fitting _ _
      · cases found
    · cases found

theorem variableLexeme_isVariable {rest : List Char} {kind : TokenKind} {more : Nat}
    (read : variableLexeme rest = .token kind more) : ∃ name, kind = .variable name := by
  unfold variableLexeme at read
  by_cases empty : ((rest.drop (if rest.head? = some '@' then ['@'] else []).length).takeWhile isVariablePart).isEmpty
  · rw [if_pos empty] at read
    cases read
  · rw [if_neg empty] at read
    exact ⟨_, (Lexeme.token.inj read).1.symm⟩

theorem stringLexeme_isString {d : Dialect} {start : Nat} {c : Char} {rest : List Char} {kind : TokenKind} {more : Nat}
    (read : stringLexeme d start c rest = .token kind more) : ∃ s, kind = .string s := by
  rw [stringLexeme] at read
  split at read
  · exact ⟨_, (Lexeme.token.inj read).1.symm⟩
  · cases read

theorem quotedIdentifierLexeme_isName {start : Nat} {style : QuoteStyle} {rest : List Char} {kind : TokenKind} {more : Nat}
    (read : quotedIdentifierLexeme start style rest = .token kind more) : ∃ name, kind = .quotedIdentifier name style := by
  rw [quotedIdentifierLexeme] at read
  split at read
  · exact ⟨_, (Lexeme.token.inj read).1.symm⟩
  · cases read

theorem wordLexeme_isWord {d : Dialect} {c : Char} {rest : List Char} {kind : TokenKind} {more : Nat}
    (read : wordLexeme d c rest = .token kind more) : (∃ name, kind = .identifier name) ∨ ∃ k, kind = .keyword k := by
  rw [← (Lexeme.token.inj read).1]
  cases Keyword.ofWord? d (String.ofList (c :: rest.takeWhile isWordPart)) with
  | none => exact .inl ⟨_, rfl⟩
  | some k => exact .inr ⟨k, rfl⟩

/-- The reader that a token comes from. -/
inductive ReadBy (d : Dialect) (start : Nat) (c : Char) (rest : List Char) (kind : TokenKind) (more : Nat) : Prop
  | string (read : stringLexeme d start c rest = .token kind more)
  | quoted (style : QuoteStyle) (opens : c = style.opening) (names : style = .double → d.doubleQuotedStrings = false)
    (read : quotedIdentifierLexeme start style rest = .token kind more)
  | number (read : numberLexeme (c :: rest) = .token kind more)
  | word (starts : isWordStart c = true) (read : wordLexeme d c rest = .token kind more)
  | atSign (read : variableLexeme rest = .token kind more)
  | sign (s : Symbol) (read : symbol? c rest = some (s, more)) (isSign : kind = .symbol s)

theorem readBy_of_lexeme {d : Dialect} {start : Nat} {c : Char} {rest : List Char} {kind : TokenKind} {more : Nat}
    (front : lexeme d start c rest = .token kind more) : ReadBy d start c rest kind more := by
  rw [lexeme] at front
  split at front
  · exact .string front
  split at front
  · exact .string front
  next noString =>
  split at front
  · next opens =>
    refine .quoted .double opens (fun _ => ?_) front
    simpa [opens] using noString
  split at front
  · next opens => exact .quoted .backtick opens nofun front
  split at front
  · next opens => exact .quoted .bracket opens nofun front
  split at front
  · exact .number front
  split at front
  · next starts => exact .word starts front
  split at front
  · exact .atSign front
  split at front
  · next s more' found =>
    cases front
    exact .sign s found rfl
  · split at front
    · cases front
    · split at front <;> cases front

/-- What a token of a kind says of the text where it stands: names, integers and signs come from one reader each. -/
def TokenKind.ReadAs (d : Dialect) (start : Nat) (c : Char) (rest : List Char) (more : Nat) : TokenKind → Prop
  | identifier name => isWordStart c = true ∧ wordLexeme d c rest = .token (.identifier name) more
  | quotedIdentifier name style => c = style.opening ∧ (style = .double → d.doubleQuotedStrings = false) ∧
      quotedIdentifierLexeme start style rest = .token (.quotedIdentifier name style) more
  | integer i => numberLexeme (c :: rest) = .token (.integer i) more
  | symbol s => symbol? c rest = some (s, more)
  | _ => True

theorem readAs_of_lexeme {d : Dialect} {start : Nat} {c : Char} {rest : List Char} {kind : TokenKind} {more : Nat}
    (front : lexeme d start c rest = .token kind more) : kind.ReadAs d start c rest more := by
  cases readBy_of_lexeme front with
  | string read =>
    obtain ⟨s, rfl⟩ := stringLexeme_isString read
    trivial
  | quoted style opens names read =>
    obtain ⟨name, rfl⟩ := quotedIdentifierLexeme_isName read
    exact ⟨opens, names, read⟩
  | number read =>
    have isNumber := numberLexeme_isNumber read
    cases kind with
    | integer => exact read
    | float => trivial
    | _ => cases isNumber
  | word starts read =>
    rcases wordLexeme_isWord read with ⟨name, rfl⟩ | ⟨k, rfl⟩
    · exact ⟨starts, read⟩
    · trivial
  | atSign read =>
    obtain ⟨name, rfl⟩ := variableLexeme_isVariable read
    trivial
  | sign s found isSign =>
    rw [isSign]
    exact found

theorem lexeme_ne_endOfInput {d : Dialect} {start : Nat} {c : Char} {rest : List Char} {kind : TokenKind} {more : Nat}
    (front : lexeme d start c rest = .token kind more) : kind ≠ .endOfInput := by
  cases readBy_of_lexeme front with
  | string read =>
    obtain ⟨s, rfl⟩ := stringLexeme_isString read
    simp
  | quoted style _ _ read =>
    obtain ⟨name, rfl⟩ := quotedIdentifierLexeme_isName read
    simp
  | number read =>
    rintro rfl
    cases numberLexeme_isNumber read
  | word _ read =>
    rcases wordLexeme_isWord read with ⟨name, rfl⟩ | ⟨k, rfl⟩ <;> simp
  | atSign read =>
    obtain ⟨name, rfl⟩ := variableLexeme_isVariable read
    simp
  | sign s _ isSign =>
    rw [isSign]
    simp

/-- No token of a stream is the end of the text. -/
def TokenStream.Proper : TokenStream → Prop
  | token t rest => t.kind ≠ .endOfInput ∧ rest.Proper
  | fault _ rest => rest.Proper
  | stuck _ => True
  | finished _ => True

theorem TokenStream.scan_proper (d : Dialect) (p : Place) (cs : List Char) : (scan d p cs).Proper := by
  fun_induction scan d p cs with
  | case1 | case2 | case5 => trivial
  | case3 p cs q c rest gap kind more front after ih => exact ⟨lexeme_ne_endOfInput front, ih⟩
  | case4 p cs q c rest gap cause more front ih => exact ih

theorem Reads.proper {d : Dialect} {p e : Place} {cs : List Char} {ts : List Token} (reads : Reads d p cs ts e) :
    Proper ts := by
  induction reads with
  | done => simp [Proper]
  | next gap front tail ih =>
    intro t member
    rcases List.mem_cons.mp member with rfl | member
    · exact lexeme_ne_endOfInput front
    · exact ih t member

/-! ## Where tokens stand -/

/-- Tokens that stand in a text one behind the other, none of them empty, when the text begins at the given offset. -/
inductive Laid : Nat → List Char → List Token → Prop
  | nil {start : Nat} {cs : List Char} : Laid start cs []
  | cons {start : Nat} {t : Token} {ts : List Token} (gap source : List Char) {after : List Char}
    (nonempty : source ≠ []) (begins : t.span.start = start + byteLength gap)
    (ends : t.span.finish = t.span.start + byteLength source) (tail : Laid t.span.finish after ts) :
    Laid start (gap ++ source ++ after) (t :: ts)

theorem laid_of_reads {d : Dialect} {p e : Place} {cs : List Char} {ts : List Token} (reads : Reads d p cs ts e) :
    Laid p.offset cs ts := by
  induction reads with
  | done => exact .nil
  | @next p q e cs rest c kind more ts gap front tail ih =>
    obtain ⟨before, rfl, rfl⟩ := exists_gap_of_skipGap gap
    have split : before ++ c :: rest = before ++ (c :: rest.take more) ++ rest.drop more := by simp
    rw [split]
    refine .cons before _ (List.cons_ne_nil _ _) (by simp) ?_ ih
    simp [Place.after_offset, Nat.add_assoc]

/-- Places at which a text that begins at the given offset can be cut. -/
def IsCut (start : Nat) (cs : List Char) (offset : Nat) : Prop :=
  ∃ before after, cs = before ++ after ∧ offset = start + byteLength before

theorem Laid.cuts {start : Nat} {cs : List Char} {ts : List Token} (laid : Laid start cs ts) :
    ∀ t ∈ ts, IsCut start cs t.span.start ∧ IsCut start cs t.span.finish ∧ t.span.start < t.span.finish := by
  induction laid with
  | nil => simp
  | @cons start t ts gap source after nonempty begins ends tail ih =>
    intro u member
    rcases List.mem_cons.mp member with rfl | member
    · have := byteLength_pos nonempty
      refine ⟨⟨gap, source ++ after, by simp, begins⟩, ⟨gap ++ source, after, rfl, ?_⟩, by omega⟩
      rw [byteLength_append]
      omega
    · have inTail {offset : Nat} (cut : IsCut t.span.finish after offset) :
          IsCut start (gap ++ source ++ after) offset := by
        obtain ⟨before, rest, rfl, rfl⟩ := cut
        refine ⟨gap ++ source ++ before, rest, by simp, ?_⟩
        simp only [byteLength_append]
        omega
      obtain ⟨first, last, order⟩ := ih u member
      exact ⟨inTail first, inTail last, order⟩

theorem Laid.start_le {start : Nat} {cs : List Char} {ts : List Token} (laid : Laid start cs ts) :
    ∀ t ∈ ts, start ≤ t.span.start := by
  intro t member
  obtain ⟨before, _, _, begins⟩ := (laid.cuts t member).1
  omega

/-- Tokens end before the next ones begin. -/
theorem Laid.pairwise {start : Nat} {cs : List Char} {ts : List Token} (laid : Laid start cs ts) :
    ts.Pairwise fun t u => t.span.finish ≤ u.span.start := by
  induction laid with
  | nil => exact .nil
  | cons gap source nonempty begins ends tail ih => exact .cons tail.start_le ih

end Sql

end SqlSharding
