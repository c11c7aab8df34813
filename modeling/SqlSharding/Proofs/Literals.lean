import SqlSharding.Proofs.Layout
import SqlSharding.Value

/-!
# Text literals

A literal writes the quotes of a text twice and everything else once. So it is read back as that text in dialects without
escapes, and elsewhere exactly if the text has no backslash.
-/

namespace SqlSharding.Sql

open Text

variable {d : Dialect} {s : String}

theorem toList_textLiteral (s : String) :
    (Value.text s).toSqlLiteral.toList = '\'' :: (Value.doubled '\'' s.toList ++ ['\'']) := by
  rw [Value.toSqlLiteral, String.toList_ofList, List.cons_append]

theorem skipGap_quote (d : Dialect) (p : Place) (cs : List Char) : skipGap d .outside p ('\'' :: cs) = .ok (p, '\'' :: cs) := by
  simp [skipGap, isSpace]

/-- The characters between the quotes of a literal read back as the text, unless a backslash has a meaning of its own. -/
theorem quotedBody_doubled {escapes : Bool} {cs r : List Char} (plain : escapes = true → '\\' ∉ cs) (ends : r.head? ≠ some '\'') :
    quotedBody '\'' true escapes (Value.doubled '\'' cs ++ '\'' :: r) = some (cs, (Value.doubled '\'' cs).length + 1) := by
  induction cs with
  | nil =>
    cases r with
    | nil => rfl
    | cons x r =>
      have other : x ≠ '\'' := by simpa using ends
      simp [Value.doubled, quotedBody, other]
  | cons c cs ih =>
    have inner := ih fun isEscaping inside => plain isEscaping (List.mem_cons_of_mem c inside)
    by_cases closes : c = '\''
    · have twice : Value.doubled '\'' (c :: cs) = '\'' :: '\'' :: Value.doubled '\'' cs := by
        simp [Value.doubled, closes]
      rw [twice, List.cons_append, List.cons_append, quotedBody, if_pos rfl, if_pos (by decide), inner, closes]
      rfl
    · have once : Value.doubled '\'' (c :: cs) = c :: Value.doubled '\'' cs := by
        simp [Value.doubled, closes]
      obtain ⟨next, rest, split⟩ := List.exists_cons_of_ne_nil
        (show Value.doubled '\'' cs ++ '\'' :: r ≠ [] by simp)
      have noEscape : ¬ (escapes && decide (c = '\\')) = true := by
        rw [Bool.and_eq_true, decide_eq_true_eq]
        rintro ⟨isEscaping, rfl⟩
        exact plain isEscaping List.mem_cons_self
      rw [split] at inner
      rw [once, List.cons_append, split, quotedBody, if_neg closes, if_neg noEscape, inner]
      rfl

/-- The literal of a text is one token, which takes all of it, unless a backslash has a meaning of its own. -/
theorem tokenize_toSqlLiteral (plain : d.backslashEscapes = true → '\\' ∉ s.toList) :
    tokenize d (Value.text s).toSqlLiteral =
      .ok [⟨.string s, ⟨0, byteLength (Value.text s).toSqlLiteral.toList⟩, 1, 1⟩,
        Token.endAt (Place.start.afterAll (Value.text s).toSqlLiteral.toList)] := by
  have front : lexeme d 0 '\'' (Value.doubled '\'' s.toList ++ ['\'']) =
      .token (.string s) (Value.doubled '\'' s.toList ++ ['\'']).length := by
    rw [lexeme, if_pos rfl, stringLexeme, quotedBody_doubled plain (by simp)]
    simp
  have reads : Reads d .start (Value.text s).toSqlLiteral.toList
      [⟨.string s, ⟨0, byteLength (Value.text s).toSqlLiteral.toList⟩, 1, 1⟩]
      (Place.start.afterAll (Value.text s).toSqlLiteral.toList) := by
    have nothing (p : Place) : Reads d p [] [] p := .done rfl
    have step := Reads.next (skipGap_quote d .start _) front (by rw [List.drop_length]; exact nothing _)
    rw [List.take_length] at step
    have length : byteLength (Value.text s).toSqlLiteral.toList =
        ((Place.start.after '\'').afterAll (Value.doubled '\'' s.toList ++ ['\''])).offset := by
      rw [toList_textLiteral, Place.afterAll_offset, Place.after_offset, byteLength_cons]
      simp [Place.start]
    rw [length, toList_textLiteral]
    exact step
  exact tokenize_of_reads reads

/-! ## Backslashes -/

theorem count_unescape_le (c : Char) : (if unescape c = '\\' then 1 else 0) ≤ if c = '\\' then 1 else 0 := by
  unfold unescape
  repeat' split
  all_goals simp_all

/-- Where a backslash escapes the next character, a text takes two of them for each that it has. -/
theorem count_backslash_of_quotedBody {close : Char} {doubles escapes : Bool} {cs v : List Char} {n : Nat}
    (escaping : escapes = true) (other : close ≠ '\\') (read : quotedBody close doubles escapes cs = some (v, n)) :
    2 * v.count '\\' ≤ cs.count '\\' := by
  fun_induction quotedBody close doubles escapes cs generalizing v n with
  | case1 => cases read
  | case2 | case5 =>
    cases read
    exact Nat.zero_le _
  | case3 => cases read
  | case4 next rest twice ih =>
    obtain ⟨⟨w, m⟩, read', same⟩ := Option.map_eq_some_iff.mp read
    cases same
    have inner := ih read'
    simp only [List.count_cons, beq_iff_eq, other, if_false]
    omega
  | case6 c next rest noClose escape ih =>
    obtain ⟨⟨w, m⟩, read', same⟩ := Option.map_eq_some_iff.mp read
    cases same
    have inner := ih read'
    have kept := count_unescape_le next
    have isBackslash : c = '\\' := by simpa [escaping] using escape
    have one : (if next = '\\' then 1 else 0) ≤ 1 := by split <;> decide
    simp only [List.count_cons, beq_iff_eq, isBackslash, if_true]
    omega
  | case7 c next rest noClose noEscape ih =>
    obtain ⟨⟨w, m⟩, read', same⟩ := Option.map_eq_some_iff.mp read
    cases same
    have inner := ih read'
    have noBackslash : c ≠ '\\' := by simpa [escaping] using noEscape
    rw [List.count_cons_of_ne noBackslash, List.count_cons_of_ne noBackslash]
    exact inner

theorem count_backslash_doubled (cs : List Char) : (Value.doubled '\'' cs).count '\\' = cs.count '\\' := by
  induction cs with
  | nil => rfl
  | cons c cs ih =>
    rw [Value.doubled, List.flatMap_cons, List.count_append, ← Value.doubled, ih]
    split
    · next isQuote => simp [isQuote]
    · next noQuote => rw [List.count_cons, List.count_cons, List.count_nil]; omega

/-- What is read back as the text that was written has lost no backslash, so there was none to lose. -/
theorem notMem_of_tokenize (escaping : d.backslashEscapes = true)
    (tokens : (tokenize d (Value.text s).toSqlLiteral).map (·.map (·.kind)) = .ok [.string s, .endOfInput]) :
    '\\' ∉ s.toList := by
  have sole : (Value.doubled '\'' s.toList ++ ['\'']).count '\\' = s.toList.count '\\' := by
    rw [List.count_append, count_backslash_doubled]
    rfl
  rw [tokenize, TokenStream.ofText, TokenStream.scan_eq, toList_textLiteral, skipGap_quote] at tokens
  generalize Value.doubled '\'' s.toList ++ ['\''] = body at sole tokens
  dsimp only at tokens
  rw [lexeme, if_pos rfl, stringLexeme] at tokens
  cases read : quotedBody '\'' true d.backslashEscapes body with
  | none =>
    rw [read] at tokens
    cases tokens
  | some part =>
    obtain ⟨v, n⟩ := part
    rw [read] at tokens
    dsimp only at tokens
    rw [TokenStream.toList?] at tokens
    generalize TokenStream.toList? _ = tail at tokens
    cases tail with
    | error => simp [Except.map] at tokens
    | ok ts =>
      have first := (List.cons.inj (Except.ok.inj tokens)).1
      have content : v = s.toList := by rw [← TokenKind.string.inj first, String.toList_ofList]
      have pairs := count_backslash_of_quotedBody escaping (by decide) read
      rw [content, sole] at pairs
      exact List.count_eq_zero.mp (by omega)

/-- The literal of a text is read back as that text exactly if the text has no backslash or the dialect no escapes. -/
theorem tokenize_toSqlLiteral_iff :
    (tokenize d (Value.text s).toSqlLiteral).map (·.map (·.kind)) = .ok [.string s, .endOfInput] ↔
      (d.backslashEscapes = true → '\\' ∉ s.toList) := by
  constructor
  · exact fun tokens escaping => notMem_of_tokenize escaping tokens
  · intro plain
    rw [tokenize_toSqlLiteral plain]
    rfl

example : (tokenize .mysql (Value.text "a\\nb").toSqlLiteral).map (·.map (·.kind)) = .ok [.string "a\nb", .endOfInput] := by
  cbv

example : tokenize .mysql (Value.text "\\").toSqlLiteral = .error (.atPlace (.unterminatedString 0) .start) := by
  cbv

end SqlSharding.Sql
