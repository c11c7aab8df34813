import SqlSharding.Proofs.Lexemes
import SqlSharding.Proofs.WholeNumbers

/-!
# Spellings

What a name or a number is spelled by, and how another one is spelled in its place: a bare word by a longer word, a
delimited name by a delimited name, a decimal number by a decimal number. The new spelling reads back as what it spells,
and a text that begins with it resembles the text that began with the old one.
-/

namespace SqlSharding.Sql

variable {d : Dialect} {source r r' : List Char}

/-- The characters that a reader takes are the ones it asks for, and the next one is not. -/
theorem taken_of_length {p : Char → Bool} (length : ((source ++ r).takeWhile p).length = source.length) :
    (source ++ r).takeWhile p = source ∧ (∀ c ∈ source, p c = true) ∧ r.head?.any p = false := by
  have taken : (source ++ r).takeWhile p = source :=
    (List.prefix_of_prefix_length_le (List.takeWhile_prefix p) (List.prefix_append source r)
      (Nat.le_of_eq length)).eq_of_length length
  have all : ∀ c ∈ source, p c = true := by
    intro c member
    rw [← taken] at member
    exact List.all_eq_true.mp List.all_takeWhile c member
  refine ⟨taken, all, takeWhile_eq_nil_iff.mp ?_⟩
  rw [List.takeWhile_append_of_pos all] at taken
  exact List.append_right_eq_self.mp taken

theorem takeWhile_of_all {p : Char → Bool} (all : ∀ c ∈ source, p c = true) (ends : r.head?.any p = false) :
    (source ++ r).takeWhile p = source := by
  rw [List.takeWhile_append_of_pos all, takeWhile_eq_nil_iff.mpr ends, List.append_nil]

/-! ## Bare words -/

theorem isWordStart_other {sign : Char} (other : isWordStart sign = false) {c : Char}
    (starts : isWordStart c = true) : c ≠ sign := by
  rintro rfl
  rw [starts] at other
  cases other

theorem isDigit_of_isWordStart {c : Char} (starts : isWordStart c = true) : c.isDigit = false := by
  rw [← Bool.not_eq_true, isDigit_iff]
  simp only [isWordStart, Bool.or_eq_true, decide_eq_true_eq, isAlpha_iff] at starts
  rcases starts with (letter | rfl) | beyond
  · omega
  · decide
  · omega

theorem isWordPart_of_isWordStart {c : Char} (starts : isWordStart c = true) : isWordPart c = true := by
  simp only [isWordStart, isWordPart, isAsciiAlphanumeric, Bool.or_eq_true, decide_eq_true_eq] at starts ⊢
  rcases starts with (letter | underscore) | beyond
  · exact .inl (.inl (.inl (.inl letter)))
  · exact .inl (.inl (.inr underscore))
  · exact .inr beyond

theorem lexeme_of_isWordStart {start : Nat} {c : Char} {rest : List Char} (starts : isWordStart c = true) :
    lexeme d start c rest = wordLexeme d c rest := by
  have single : c ≠ '\'' := isWordStart_other (by decide) starts
  have double : c ≠ '"' := isWordStart_other (by decide) starts
  have backtick : c ≠ '\x60' := isWordStart_other (by decide) starts
  have bracket : c ≠ '[' := isWordStart_other (by decide) starts
  have dot : c ≠ '.' := isWordStart_other (by decide) starts
  simp [lexeme, single, double, backtick, bracket, dot, isDigit_of_isWordStart starts, starts]

theorem stops_of_isWordStart {c : Char} {rest : List Char} (starts : isWordStart c = true) : Stops d (c :: rest) := by
  have noSpace : isSpace c = false := by
    have other (sign : Char) (other : isWordStart sign = false) : c ≠ sign := isWordStart_other other starts
    simp [isSpace, other ' ' (by decide), other '\t' (by decide), other '\n' (by decide), other '\x0C' (by decide),
      other '\r' (by decide)]
  refine stops_cons_iff.mpr ⟨noSpace, fun is => ?_, fun is => ?_, fun is => ?_⟩
  · exact isWordStart_other (by decide) starts is.1
  · exact isWordStart_other (by decide) starts is.1
  · exact isWordStart_other (by decide) starts is.1

/-- The word that a bare identifier is spelled by. -/
theorem Spells.identifier {name : String} (spells : Spells d source r (.identifier name)) :
    ∃ c tail, source = c :: tail ∧ name.toList = c :: tail ∧ isWordStart c = true ∧
      (∀ x ∈ tail, isWordPart x = true) ∧ r.head?.any isWordPart = false := by
  obtain ⟨-, c, tail, rfl, front⟩ := spells
  obtain ⟨starts, read⟩ := readAs_of_lexeme (front 0)
  obtain ⟨isName, length⟩ := Lexeme.token.inj read
  obtain ⟨taken, parts, ends⟩ := taken_of_length length
  rw [taken] at isName
  cases word : Keyword.ofWord? d (String.ofList (c :: tail)) with
  | some k =>
    rw [word] at isName
    cases isName
  | none =>
    rw [word] at isName
    cases isName
    exact ⟨c, tail, rfl, String.toList_ofList, starts, parts, ends⟩

/-- A word that is no keyword is spelled by itself, unless it goes on. -/
theorem spells_word {c : Char} {tail : List Char} (starts : isWordStart c = true)
    (parts : ∀ x ∈ tail, isWordPart x = true) (ends : r.head?.any isWordPart = false)
    (noKeyword : Keyword.ofWord? d (String.ofList (c :: tail)) = none) :
    Spells d (c :: tail) r (.identifier (String.ofList (c :: tail))) := by
  refine ⟨stops_of_isWordStart starts, c, tail, rfl, fun start => ?_⟩
  rw [lexeme_of_isWordStart starts, wordLexeme, takeWhile_of_all parts ends, noKeyword]
  rfl

theorem noDigit_of_keyword (k : Keyword) : k.text.toList.all (fun c => !c.isDigit) = true := by
  -- the letters of a literal are found faster by unification than by running `String.toList`
  have letters {cs : List Char} (all : cs.all (fun c => !c.isDigit) = true) :
      (String.ofList cs).toList.all (fun c => !c.isDigit) = true := by
    rwa [String.toList_ofList]
  cases k <;> exact letters rfl

theorem toUpper_of_isDigit {c : Char} (digit : c.isDigit = true) : c.toUpper = c := by
  rw [isDigit_iff] at digit
  rw [Char.toUpper, dif_neg]
  intro small
  have : 97 ≤ c.toNat := small.1
  omega

/-- A word with a digit is no keyword. -/
theorem ofWord?_eq_none {word : String} {c : Char} (member : c ∈ word.toList) (digit : c.isDigit = true) :
    Keyword.ofWord? d word = none := by
  rw [Keyword.ofWord?, List.find?_eq_none]
  intro k _ same
  have upper : c ∈ (Text.upper word).toList := by
    rw [Text.upper, String.toList_map]
    exact List.mem_map.mpr ⟨c, member, toUpper_of_isDigit digit⟩
  rw [← of_decide_eq_true same] at upper
  have := List.all_eq_true.mp (noDigit_of_keyword k) c upper
  simp [digit] at this

/-! ## Names with a suffix -/

/-- Digits that are put behind a name. -/
structure IsSuffix (k : String) : Prop where
  nonempty : k.toList ≠ []
  digits : ∀ c ∈ k.toList, c.isDigit = true

/-- A name with a suffix behind an underscore. -/
def suffixed (name k : String) : String := name ++ "_" ++ k

theorem toList_suffixed (name k : String) : (suffixed name k).toList = name.toList ++ '_' :: k.toList := by
  simp [suffixed]

theorem sameName_iff {name name' : String} :
    Text.sameName name name' = true ↔ List.Forall₂ SameLetter name.toList name'.toList := by
  rw [Text.sameName, decide_eq_true_iff, ← String.toList_inj, Text.lower, Text.lower, String.toList_map,
    String.toList_map, ← List.forall₂_eq_eq_eq, List.forall₂_map_left_iff, List.forall₂_map_right_iff]
  rfl

theorem all_of_sameLetters {p : Char → Bool} (respects : ∀ {c c'}, Kin c c' → p c = p c') {word word' : List Char}
    (letters : List.Forall₂ SameLetter word word') (all : ∀ c ∈ word, p c = true) : ∀ c ∈ word', p c = true := by
  induction letters with
  | nil => simp
  | @cons c c' word word' first _ ih =>
    intro x member
    rcases List.mem_cons.mp member with rfl | later
    · exact (respects (.inl first)).symm.trans (all c List.mem_cons_self)
    · exact ih (fun y inside => all y (List.mem_cons_of_mem c inside)) x later

theorem IsSuffix.exists_digit {k : String} (suffix : IsSuffix k) (name : String) :
    ∃ c ∈ (suffixed name k).toList, c.isDigit = true := by
  obtain ⟨c, rest, split⟩ := List.exists_cons_of_ne_nil suffix.nonempty
  have member : c ∈ k.toList := by simp [split]
  refine ⟨c, ?_, suffix.digits c member⟩
  rw [toList_suffixed]
  simp [member]

theorem isWordPart_of_isDigit {c : Char} (digit : c.isDigit = true) : isWordPart c = true := by
  simp [isWordPart, isAsciiAlphanumeric, digit]

/-- A bare name with a suffix takes the place of the bare name. -/
theorem Spells.suffixed_word {name name' k : String} (spells : Spells d source r (.identifier name))
    (same : Text.sameName name name' = true) (suffix : IsSuffix k) (resembles : Resembles r r') :
    Spells d (suffixed name' k).toList r' (.identifier (suffixed name' k)) ∧
      Resembles (source ++ r) ((suffixed name' k).toList ++ r') := by
  obtain ⟨c, tail, rfl, word, starts, parts, ends⟩ := spells.identifier
  have letters := sameName_iff.mp same
  have spelled := toList_suffixed name' k
  have resembling : Resembles (c :: tail ++ r) ((suffixed name' k).toList ++ r') := by
    rw [spelled, ← word, List.append_assoc]
    refine .of_word (by simp [word]) letters fun x member => ?_
    rw [word] at member
    rcases List.mem_cons.mp member with rfl | later
    · exact isWordPart_of_isWordStart starts
    · exact parts x later
  refine ⟨?_, resembling⟩
  obtain ⟨x, inName, digit⟩ := suffix.exists_digit name'
  have noKeyword := ofWord?_eq_none (d := d) inName digit
  rw [word] at letters
  cases written : name'.toList with
  | nil =>
    rw [written] at letters
    cases letters
  | cons c' tail' =>
    rw [written] at letters spelled
    obtain ⟨first, others⟩ := List.forall₂_cons.mp letters
    have starts' : isWordStart c' = true := (Kin.isWordStart_eq (.inl first)) ▸ starts
    have parts' : ∀ x ∈ tail' ++ '_' :: k.toList, isWordPart x = true := by
      intro x member
      rcases List.mem_append.mp member with old | new
      · exact all_of_sameLetters (·.isWordPart_eq) others parts x old
      · rcases List.mem_cons.mp new with rfl | digits
        · rfl
        · exact isWordPart_of_isDigit (suffix.digits x digits)
    have ends' : r'.head?.any isWordPart = false := (resembles.any_eq (·.isWordPart_eq)).symm.trans ends
    have spells' := spells_word (d := d) starts' parts' ends'
    rw [← List.cons_append, ← spelled, String.ofList_toList] at spells'
    exact spells' noKeyword

/-! ## Delimited names -/

theorem lexeme_of_opening {start : Nat} {style : QuoteStyle} {rest : List Char}
    (names : style = .double → d.doubleQuotedStrings = false) :
    lexeme d start style.opening rest = quotedIdentifierLexeme start style rest := by
  cases style with
  | backtick | bracket => rfl
  | double => simp [lexeme, QuoteStyle.opening, names rfl]

theorem stops_of_opening {style : QuoteStyle} {rest : List Char} : Stops d (style.opening :: rest) := by
  cases style <;> simp [stops_cons_iff, QuoteStyle.opening, isSpace]

/-- A name without a closing character that could not be doubled. -/
def QuoteStyle.Fits (style : QuoteStyle) (name : List Char) : Prop :=
  style.doublesClosing = true ∨ style.closing ∉ name

theorem QuoteStyle.escape_cons (style : QuoteStyle) (c : Char) (name : List Char) : style.escape (c :: name) =
    (if style.doublesClosing = true ∧ c = style.closing then [c, c] else [c]) ++ style.escape name := by
  rw [escape, escape]
  cases style.doublesClosing with
  | true => simp
  | false => simp

/-- What stands between delimiters reads back as the name. -/
theorem quotedBody_escape {style : QuoteStyle} {name : List Char} (fits : style.Fits name)
    (ends : style.doublesClosing = true → r.head? ≠ some style.closing) :
    quotedBody style.closing style.doublesClosing false (style.escape name ++ style.closing :: r) =
      some (name, (style.escape name).length + 1) := by
  induction name with
  | nil =>
    have empty : style.escape [] = [] := by cases style <;> rfl
    rw [empty, List.nil_append]
    cases r with
    | nil =>
      rw [quotedBody, if_pos rfl]
      rfl
    | cons x r =>
      rw [quotedBody, if_pos rfl, if_neg]
      · rfl
      · simpa using ends
  | cons c name ih =>
    have inner := ih (fits.imp_right fun apart inside => apart (List.mem_cons_of_mem c inside))
    rw [QuoteStyle.escape_cons]
    by_cases closes : c = style.closing
    · have doubles : style.doublesClosing = true := fits.resolve_right fun apart => apart (closes ▸ List.mem_cons_self)
      rw [if_pos ⟨doubles, closes⟩, closes]
      simp only [List.cons_append, List.nil_append]
      rw [quotedBody, if_pos rfl, if_pos (by simp [doubles]), inner]
      rfl
    · rw [if_neg (fun both => closes both.2), List.singleton_append, List.cons_append]
      obtain ⟨next, rest, split⟩ := List.exists_cons_of_ne_nil
        (show style.escape name ++ style.closing :: r ≠ [] by simp)
      rw [split] at inner ⊢
      rw [quotedBody, if_neg closes, if_neg (by simp), inner]
      rfl

/-- A delimited name is spelled by its characters between delimiters. -/
theorem spells_quote {style : QuoteStyle} {name : String} (names : style = .double → d.doubleQuotedStrings = false)
    (fits : style.Fits name.toList) (ends : style.doublesClosing = true → r.head? ≠ some style.closing) :
    Spells d (style.quote name).toList r (.quotedIdentifier name style) := by
  rw [QuoteStyle.quote, String.toList_ofList]
  refine ⟨stops_of_opening, style.opening, style.escape name.toList ++ [style.closing], rfl, fun start => ?_⟩
  rw [lexeme_of_opening names, quotedIdentifierLexeme, List.append_assoc, List.singleton_append,
    quotedBody_escape fits ends]
  simp

theorem notMem_of_quotedBody {close : Char} {cs s : List Char} {n : Nat}
    (found : quotedBody close false false cs = some (s, n)) : close ∉ s := by
  fun_induction quotedBody close false false cs generalizing s n with
  | case1 => cases found
  | case2 =>
    cases found
    simp
  | case3 => cases found
  | case4 next rest doubled => cases doubled
  | case5 =>
    cases found
    simp
  | case6 c next rest other escaped => cases escaped
  | case7 c next rest other plain ih =>
    obtain ⟨⟨s, n⟩, inner, same⟩ := Option.map_eq_some_iff.mp found
    cases same
    simp [ih inner, Ne.symm other]

/-- The characters up to the closing one are those of the name as it is written. -/
theorem take_of_quotedBody {style : QuoteStyle} {cs s : List Char} {n : Nat}
    (found : quotedBody style.closing style.doublesClosing false cs = some (s, n)) :
    cs.take n = style.escape s ++ [style.closing] := by
  have nothing : style.escape [] = [] := by cases style <;> rfl
  fun_induction quotedBody style.closing style.doublesClosing false cs generalizing s n with
  | case1 => cases found
  | case2 =>
    cases found
    rw [nothing]
    rfl
  | case3 => cases found
  | case4 next rest doubled ih =>
    obtain ⟨⟨s, n⟩, inner, same⟩ := Option.map_eq_some_iff.mp found
    cases same
    obtain ⟨doubles, rfl⟩ : style.doublesClosing = true ∧ next = style.closing := by simpa using doubled
    rw [List.take_succ_cons, List.take_succ_cons, ih inner, QuoteStyle.escape_cons, if_pos ⟨doubles, rfl⟩]
    rfl
  | case5 =>
    cases found
    rw [nothing]
    rfl
  | case6 c next rest other escaped => cases escaped
  | case7 c next rest other plain ih =>
    obtain ⟨⟨s, n⟩, inner, same⟩ := Option.map_eq_some_iff.mp found
    cases same
    rw [List.take_succ_cons, ih inner, QuoteStyle.escape_cons, if_neg (fun both => other both.2)]
    rfl

/-- What is read of a delimited name. -/
theorem Spells.exists_quotedBody {name : String} {style : QuoteStyle}
    (spells : Spells d source r (.quotedIdentifier name style)) :
    ∃ tail, source = style.opening :: tail ∧ (style = .double → d.doubleQuotedStrings = false) ∧
      quotedBody style.closing style.doublesClosing false (tail ++ r) = some (name.toList, tail.length) := by
  obtain ⟨-, c, tail, rfl, front⟩ := spells
  obtain ⟨opens, names, read⟩ := readAs_of_lexeme (front 0)
  rw [quotedIdentifierLexeme] at read
  split at read
  · next s n found =>
    obtain ⟨isName, length⟩ := Lexeme.token.inj read
    cases isName
    exact ⟨tail, by rw [opens], names, by rw [String.toList_ofList, ← length, found]⟩
  · cases read

/-- How a delimited name is spelled. -/
theorem Spells.quotedIdentifier {name : String} {style : QuoteStyle}
    (spells : Spells d source r (.quotedIdentifier name style)) :
    source = (style.quote name).toList ∧ (style = .double → d.doubleQuotedStrings = false) ∧
      style.Fits name.toList ∧ (style.doublesClosing = true → r.head? ≠ some style.closing) := by
  obtain ⟨tail, rfl, names, found⟩ := spells.exists_quotedBody
  have body := take_of_quotedBody found
  rw [List.take_left] at body
  obtain ⟨taken, rest, split, sameLength, apart, -⟩ := exists_body_of_quotedBody found
  obtain ⟨-, rfl⟩ := List.append_inj split sameLength.symm
  refine ⟨?_, names, ?_, apart⟩
  · rw [body, QuoteStyle.quote, String.toList_ofList, List.cons_append]
  · cases style with
    | backtick | double => exact .inl rfl
    | bracket => exact .inr (notMem_of_quotedBody found)

/-- A delimited name that fits takes the place of a delimited name. -/
theorem Spells.quote {name new : String} {style : QuoteStyle} (spells : Spells d source r (.quotedIdentifier name style))
    (fits : style.Fits new.toList) (resembles : Resembles r r') :
    Spells d (style.quote new).toList r' (.quotedIdentifier new style) ∧
      Resembles (source ++ r) ((style.quote new).toList ++ r') := by
  obtain ⟨rfl, names, -, ends⟩ := spells.quotedIdentifier
  have own : isOwnSign style.closing = true := by cases style <;> decide
  refine ⟨spells_quote names fits fun doubles closing => ends doubles (resembles.head?_of_sign closing own), ?_⟩
  rw [QuoteStyle.quote, QuoteStyle.quote, String.toList_ofList, String.toList_ofList]
  cases style with
  | backtick | bracket | double => exact .of_sign (by decide) (by decide)

/-- A delimited name still fits with a suffix. -/
theorem QuoteStyle.Fits.suffixed {name name' k : String} {style : QuoteStyle} (fits : style.Fits name.toList)
    (same : Text.sameName name name' = true) (suffix : IsSuffix k) : style.Fits (suffixed name' k).toList := by
  have own : isOwnSign style.closing = true := by cases style <;> decide
  have noDigit : style.closing.isDigit = false := by cases style <;> decide
  refine fits.imp_right fun apart => ?_
  have others := all_of_sameLetters (p := fun c => c ≠ style.closing)
    (fun kin => by simp only [ne_eq, kin.eq_iff own]) (sameName_iff.mp same)
    fun c member => decide_eq_true fun closes => apart (closes ▸ member)
  rw [toList_suffixed]
  intro member
  rcases List.mem_append.mp member with inName | inSuffix
  · simpa using others _ inName
  · rcases List.mem_cons.mp inSuffix with underscore | digits
    · cases style <;> cases underscore
    · have digit := suffix.digits _ digits
      rw [noDigit] at digit
      cases digit

/-- A delimited name with a suffix takes the place of the delimited name. -/
theorem Spells.suffixed_quote {name name' k : String} {style : QuoteStyle}
    (spells : Spells d source r (.quotedIdentifier name style)) (same : Text.sameName name name' = true)
    (suffix : IsSuffix k) (resembles : Resembles r r') :
    Spells d (style.quote (suffixed name' k)).toList r' (.quotedIdentifier (suffixed name' k) style) ∧
      Resembles (source ++ r) ((style.quote (suffixed name' k)).toList ++ r') := by
  obtain ⟨-, -, fits, -⟩ := spells.quotedIdentifier
  exact spells.quote (fits.suffixed same suffix) resembles

/-! ## Decimal numbers -/

theorem foldDigits_toDigits (n : Nat) : Text.foldDigits 0 (Nat.toDigits 10 n) = n := by
  rw [Text.foldDigits_eq, Nat.ofDigitChars_ten_toDigits]

/-- What follows a decimal number does not go on it. -/
structure EndsNumber (r : List Char) : Prop where
  digit : startsDigit r = false
  fraction : startsFraction r = false
  exponent : startsExponent r = false

theorem EndsNumber.replace (ends : EndsNumber r) (resembles : Resembles r r') : EndsNumber r' where
  digit := resembles.startsDigit_eq.symm.trans ends.digit
  fraction := by
    have := ends.fraction
    rw [← Bool.not_eq_true] at this ⊢
    exact fun starts => this (resembles.fraction starts)
  exponent := by
    have := ends.exponent
    rw [← Bool.not_eq_true] at this ⊢
    exact fun starts => this (resembles.exponent starts)

variable (digits : ∀ c ∈ source, c.isDigit = true)

include digits

/-- Digits that a decimal number consists of are not gone on. -/
theorem endsNumber_of_length (length : (decimalNumber (source ++ r)).2 = source.length) : EndsNumber r := by
  unfold decimalNumber at length
  dsimp only at length
  rw [List.takeWhile_append_of_pos digits] at length
  have digit : (r.takeWhile Char.isDigit).length = 0 := by
    rw [List.length_append] at length
    omega
  have noDigits : r.takeWhile Char.isDigit = [] := List.length_eq_zero_iff.mp digit
  rw [noDigits, List.append_nil, List.drop_left] at length
  have fraction : fractionPart? r = none := by
    cases found : fractionPart? r with
    | none => rfl
    | some ds =>
      rw [found, Option.elim_some] at length
      omega
  rw [fraction, Option.elim_none, List.drop_zero] at length
  have exponent : markedExponent? r = none := by
    cases found : markedExponent? r with
    | none => rfl
    | some part =>
      rw [found, Option.elim_some] at length
      have := markedExponent?_pos found
      omega
  exact ⟨takeWhile_eq_nil_iff.mp noDigits, fractionPart?_eq_none.mp fraction, markedExponent?_eq_none.mp exponent⟩

/-- Digits that are not gone on are a decimal number. -/
theorem decimalNumber_of_digits (ends : EndsNumber r) : decimalNumber (source ++ r) =
    ((Text.int64? (Text.foldDigits 0 source)).elim
      (.float (Binary64.ofDecimal false (Text.foldDigits 0 source) 0)) .integer, source.length) := by
  have whole : (source ++ r).takeWhile Char.isDigit = source := takeWhile_of_all digits ends.digit
  unfold decimalNumber
  dsimp only
  rw [whole, List.drop_left, fractionPart?_eq_none.mpr ends.fraction]
  simp [markedExponent?_eq_none.mpr ends.exponent]

theorem length_le_decimalNumber : source.length ≤ (decimalNumber (source ++ r)).2 := by
  unfold decimalNumber
  dsimp only
  rw [List.takeWhile_append_of_pos digits, List.length_append]
  omega

/-- A hexadecimal number does not begin with two digits. -/
theorem startsHexadecimal_of_digits (nonempty : source ≠ []) : startsHexadecimal (source ++ r) = false := by
  obtain ⟨c, tail, rfl⟩ := List.exists_cons_of_ne_nil nonempty
  have digit := digits c List.mem_cons_self
  have small : c ≠ 'x' := ne_of_isDigit digit (by decide)
  have capital : c ≠ 'X' := ne_of_isDigit digit (by decide)
  simp [startsHexadecimal, small, capital]

omit digits in
theorem lexeme_of_isDigit {start : Nat} {c : Char} {rest : List Char} (digit : c.isDigit = true) :
    lexeme d start c rest = numberLexeme (c :: rest) := by
  have single : c ≠ '\'' := ne_of_isDigit digit (by decide)
  have double : c ≠ '"' := ne_of_isDigit digit (by decide)
  have backtick : c ≠ '\x60' := ne_of_isDigit digit (by decide)
  have bracket : c ≠ '[' := ne_of_isDigit digit (by decide)
  simp [lexeme, single, double, backtick, bracket, digit]

omit digits in
theorem stops_of_isDigit {c : Char} {rest : List Char} (digit : c.isDigit = true) : Stops d (c :: rest) := by
  have noSpace : isSpace c = false := by
    have blank : c ≠ ' ' := ne_of_isDigit digit (by decide)
    have tab : c ≠ '\t' := ne_of_isDigit digit (by decide)
    have newline : c ≠ '\n' := ne_of_isDigit digit (by decide)
    have feed : c ≠ '\x0C' := ne_of_isDigit digit (by decide)
    have return_ : c ≠ '\r' := ne_of_isDigit digit (by decide)
    simp [isSpace, blank, tab, newline, feed, return_]
  have number : c ≠ '#' := ne_of_isDigit digit (by decide)
  have minus : c ≠ '-' := ne_of_isDigit digit (by decide)
  have slash : c ≠ '/' := ne_of_isDigit digit (by decide)
  exact stops_cons_iff.mpr ⟨noSpace, fun is => number is.1, fun is => minus is.1, fun is => slash is.1⟩

/-- What follows an integer in decimal notation. -/
theorem Spells.endsNumber {i : Int64} (spells : Spells d source r (.integer i)) : EndsNumber r := by
  obtain ⟨-, c, tail, rfl, front⟩ := spells
  have read := front 0
  rw [lexeme_of_isDigit (digits c List.mem_cons_self)] at read
  have length : ((hexNumber? (c :: (tail ++ r))).getD (decimalNumber (c :: (tail ++ r)))).2 - 1 = tail.length :=
    (Lexeme.token.inj read).2
  have decimal : hexNumber? (c :: (tail ++ r)) = none := by
    cases found : hexNumber? (c :: (tail ++ r)) with
    | none => rfl
    | some number =>
      have starts : hexNumber? (c :: (tail ++ r)) ≠ none := by simp [found]
      rw [ne_eq, hexNumber?_eq_none, Decidable.not_not] at starts
      cases tail with
      | nil =>
        rw [found, Option.getD_some, List.length_nil] at length
        have := hexNumber?_two_le found
        omega
      | cons x tail =>
        have rest : ∀ y ∈ x :: tail, y.isDigit = true := fun y member => digits y (List.mem_cons_of_mem c member)
        rw [startsHexadecimal_of_digits rest (List.cons_ne_nil x tail)] at starts
        cases starts.2
  rw [decimal, Option.getD_none] at length
  have atLeast := length_le_decimalNumber (r := r) digits
  refine endsNumber_of_length digits ?_
  rw [List.cons_append, List.length_cons] at atLeast ⊢
  omega

/-- Digits are spelled by themselves. -/
theorem spells_digits (nonempty : source ≠ []) (ends : EndsNumber r)
    (decimal : source = ['0'] → startsHexadecimal r = false) : Spells d source r
      ((Text.int64? (Text.foldDigits 0 source)).elim
        (.float (Binary64.ofDecimal false (Text.foldDigits 0 source) 0)) .integer) := by
  obtain ⟨c, tail, rfl⟩ := List.exists_cons_of_ne_nil nonempty
  have digit := digits c List.mem_cons_self
  refine ⟨stops_of_isDigit digit, c, tail, rfl, fun start => ?_⟩
  have noHex : hexNumber? (c :: (tail ++ r)) = none := by
    rw [hexNumber?_eq_none]
    rintro ⟨rfl, starts⟩
    cases tail with
    | nil =>
      rw [List.nil_append, decimal rfl] at starts
      cases starts
    | cons x tail =>
      have rest : ∀ y ∈ x :: tail, y.isDigit = true := fun y member => digits y (List.mem_cons_of_mem _ member)
      rw [startsHexadecimal_of_digits rest (List.cons_ne_nil x tail)] at starts
      cases starts
  rw [lexeme_of_isDigit digit, numberLexeme, noHex, Option.getD_none, ← List.cons_append,
    decimalNumber_of_digits digits ends]
  rfl

omit digits in
/-- How a number that is not negative is written. -/
theorem toList_toString_toInt {v : Int64} (nonneg : 0 ≤ v) :
    (toString v.toInt).toList = Nat.toDigits 10 v.toInt.toNat := by
  have isNat : 0 ≤ v.toInt := Int64.toInt_zero ▸ Int64.le_iff_toInt_le.mp nonneg
  obtain ⟨n, same⟩ := Int.eq_ofNat_of_zero_le isNat
  rw [same]
  exact Nat.toList_repr

omit digits in
theorem foldDigits_toString_toInt {v : Int64} (nonneg : 0 ≤ v) :
    Text.foldDigits 0 (toString v.toInt).toList = v.toInt.toNat := by
  rw [toList_toString_toInt nonneg, foldDigits_toDigits]

omit digits in
/-- Only zero is written as a single zero. -/
theorem eq_zero_of_toString {v : Int64} (nonneg : 0 ≤ v) (zero : (toString v.toInt).toList = ['0']) : v = 0 := by
  have isNat : 0 ≤ v.toInt := Int64.toInt_zero ▸ Int64.le_iff_toInt_le.mp nonneg
  have value := foldDigits_toString_toInt nonneg
  rw [zero] at value
  have none : v.toInt.toNat = 0 := value.symm
  refine Int64.toInt_inj.mp ?_
  rw [Int64.toInt_zero]
  omega

/-- A number that is not negative takes the place of an integer in decimal notation. -/
theorem Spells.decimal {i v : Int64} (spells : Spells d source r (.integer i)) (nonneg : 0 ≤ v)
    (resembles : Resembles r r') (decimal : v = 0 → startsHexadecimal r' = false) :
    Spells d (toString v.toInt).toList r' (.integer v) ∧
      Resembles (source ++ r) ((toString v.toInt).toList ++ r') := by
  have ends := (spells.endsNumber digits).replace resembles
  have written := toList_toString_toInt nonneg
  have isNat : 0 ≤ v.toInt := Int64.toInt_zero ▸ Int64.le_iff_toInt_le.mp nonneg
  have newDigits : ∀ c ∈ (toString v.toInt).toList, c.isDigit = true := by
    rw [written]
    exact fun c => Nat.isDigit_of_mem_toDigits (by decide) (by decide)
  have nonempty : (toString v.toInt).toList ≠ [] := by
    rw [written]
    exact Nat.toDigits_ne_nil
  have spells' := spells_digits (d := d) newDigits nonempty ends fun zero => decimal (eq_zero_of_toString nonneg zero)
  rw [foldDigits_toString_toInt nonneg, Int.toNat_of_nonneg isNat, Text.int64?_eq_some_iff.mpr rfl] at spells'
  refine ⟨spells', ?_⟩
  obtain ⟨-, c, tail, rfl, -⟩ := spells
  obtain ⟨c', tail', split⟩ := List.exists_cons_of_ne_nil nonempty
  rw [split] at newDigits ⊢
  exact .of_digits (digits c List.mem_cons_self) (newDigits c' List.mem_cons_self)

end SqlSharding.Sql
