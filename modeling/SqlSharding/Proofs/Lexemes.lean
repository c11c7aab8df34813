import SqlSharding.Proofs.Gaps
import SqlSharding.Proofs.Neighbours

/-!
# Lexemes in place

A gap and a token stay what they are when another text takes the place of what follows them, as long as the two texts
resemble each other. So tokens can be exchanged one by one.
-/

namespace SqlSharding.Sql

variable {d : Dialect}

/-! ## Gaps -/

/-- No gap begins here. -/
def Stops (d : Dialect) (cs : List Char) : Prop := ∀ p, skipGap d .outside p cs = .ok (p, cs)

/-- Whether a gap begins can be told from one place. -/
theorem noGap_of_skipGap {c : Char} {cs : List Char} {p q : Place} (here : skipGap d .outside p (c :: cs) = .ok (q, c :: cs)) :
    isSpace c = false ∧ ¬ (c = '#' ∧ d.hashComments = true) ∧ ¬ (c = '-' ∧ cs.head? = some '-') ∧
      ¬ (c = '/' ∧ cs.head? = some '*') := by
  have longer {state : GapState} {p : Place} {rest : List Char} (shorter : rest.length ≤ cs.length) :
      skipGap d state p rest ≠ .ok (q, c :: cs) := by
    intro skipped
    have := skipGap_length_le d state p q rest (c :: cs) skipped
    rw [List.length_cons] at this
    omega
  have noLine : ¬ (c = '-' ∧ cs.head? = some '-') := by
    rintro ⟨rfl, next⟩
    obtain ⟨rest, rfl⟩ := List.head?_eq_some_iff.mp next
    exact longer (Nat.le_succ _) here
  have noBlock : ¬ (c = '/' ∧ cs.head? = some '*') := by
    rintro ⟨rfl, next⟩
    obtain ⟨rest, rfl⟩ := List.head?_eq_some_iff.mp next
    exact longer (Nat.le_succ _) here
  rw [skipGap] at here
  · split at here
    · exact absurd here (longer (Nat.le_refl _))
    · next noSpace =>
      split at here
      · exact absurd here (longer (Nat.le_refl _))
      · next noHash => exact ⟨Bool.eq_false_iff.mpr noSpace, by simpa using noHash, noLine, noBlock⟩
  · rintro rest rfl rfl
    exact noLine ⟨rfl, rfl⟩
  · rintro rest rfl rfl
    exact noBlock ⟨rfl, rfl⟩

theorem stops_cons_iff {c : Char} {cs : List Char} : Stops d (c :: cs) ↔
    isSpace c = false ∧ ¬ (c = '#' ∧ d.hashComments = true) ∧ ¬ (c = '-' ∧ cs.head? = some '-') ∧
      ¬ (c = '/' ∧ cs.head? = some '*') := by
  constructor
  · intro stops
    exact noGap_of_skipGap (stops .start)
  · rintro ⟨noSpace, noHash, noLine, noBlock⟩ p
    rw [skipGap, if_neg (by simp [noSpace]), if_neg (by simpa using noHash)]
    · rintro rest rfl rfl
      exact noLine ⟨rfl, rfl⟩
    · rintro rest rfl rfl
      exact noBlock ⟨rfl, rfl⟩

/-- No gap begins behind one. -/
theorem stops_of_skipGap {p q : Place} {cs rest : List Char} {c : Char} (skipped : skipGap d .outside p cs = .ok (q, c :: rest)) :
    Stops d (c :: rest) := by
  obtain ⟨gap, rfl, rfl, isGap⟩ := isGap_of_skipGap skipped
  rw [skipGap_append isGap nofun] at skipped
  exact stops_cons_iff.mpr (noGap_of_skipGap skipped)

/-! ## Numbers -/

section Replace

variable {p : Char → Bool} {source tail r r' : List Char} {c : Char} (replaces : Replaces r r')

include replaces

omit replaces in
/-- Characters are taken up to the end of a stretch, if they were before and more of them do not follow now. -/
theorem takeWhile_replace (starts : r'.head?.any p = true → r.head?.any p = true)
    (short : ((source ++ r).takeWhile p).length ≤ source.length) :
    (source ++ r').takeWhile p = (source ++ r).takeWhile p := by
  induction source with
  | nil =>
    have stops : r.takeWhile p = [] := List.length_eq_zero_iff.mp (Nat.le_zero.mp short)
    rw [takeWhile_eq_nil_iff, ← Bool.not_eq_true] at stops
    have stops' : r'.takeWhile p = [] := by
      rw [takeWhile_eq_nil_iff, ← Bool.not_eq_true]
      exact fun more => stops (starts more)
    rw [List.nil_append, List.nil_append, stops', takeWhile_eq_nil_iff.mpr (Bool.eq_false_iff.mpr stops)]
  | cons c source ih =>
    rw [List.cons_append, List.cons_append, List.takeWhile_cons, List.takeWhile_cons]
    split
    · next holds =>
      rw [List.cons_append, List.takeWhile_cons, if_pos holds] at short
      rw [ih (Nat.le_of_succ_le_succ short)]
    · rfl

omit replaces in
theorem exponentPart?_pos {cs : List Char} {e : Int} {n : Nat} (found : exponentPart? cs = some (e, n)) : 0 < n := by
  unfold exponentPart? at found
  split at found <;> dsimp only at found <;> split at found <;> cases found
  · exact Nat.succ_pos _
  · exact Nat.succ_pos _
  · next nonempty => exact List.length_pos_iff.mpr fun is => nonempty (List.isEmpty_iff.mpr is)

omit replaces in
theorem markedExponent?_pos {cs : List Char} {part : Int × Nat} (found : markedExponent? cs = some part) :
    0 < part.2 := by
  cases cs with
  | nil => cases found
  | cons c cs =>
    rw [markedExponent?] at found
    split at found
    · obtain ⟨_, _, same⟩ := Option.map_eq_some_iff.mp found
      cases same
      exact Nat.succ_pos _
    · cases found

/-- Digits that are read only if there are some. -/
theorem digits_replace (short : ((source ++ r).takeWhile Char.isDigit).isEmpty = false →
    ((source ++ r).takeWhile Char.isDigit).length ≤ source.length) :
    (source ++ r').takeWhile Char.isDigit = (source ++ r).takeWhile Char.isDigit := by
  refine takeWhile_replace replaces.digit ?_
  cases empty : ((source ++ r).takeWhile Char.isDigit).isEmpty with
  | true =>
    rw [List.isEmpty_iff.mp empty]
    exact Nat.zero_le _
  | false => exact short empty

theorem fractionPart?_replace
    (short : ∀ ds, fractionPart? (source ++ r) = some ds → ds.length + 1 ≤ source.length) :
    fractionPart? (source ++ r') = fractionPart? (source ++ r) := by
  cases source with
  | nil =>
    have none : fractionPart? r = none := Option.eq_none_iff_forall_ne_some.mpr fun ds found => nomatch short ds found
    rw [List.nil_append, List.nil_append, none, fractionPart?_eq_none, ← Bool.not_eq_true]
    rw [fractionPart?_eq_none, ← Bool.not_eq_true] at none
    exact fun starts => none (replaces.fraction starts)
  | cons c source =>
    by_cases isDot : c = '.'
    · subst isDot
      have digits : (source ++ r').takeWhile Char.isDigit = (source ++ r).takeWhile Char.isDigit :=
        digits_replace replaces fun nonempty => Nat.le_of_succ_le_succ (short ((source ++ r).takeWhile Char.isDigit) (by simp [fractionPart?, nonempty]))
      simp only [List.cons_append, fractionPart?, digits]
    · have other (cs : List Char) : fractionPart? (c :: cs) = none := by
        rw [fractionPart?_eq_none]
        simp [startsFraction, isDot]
      rw [List.cons_append, List.cons_append, other, other]

theorem exponentPart?_replace (short : ∀ e n, exponentPart? (source ++ r) = some (e, n) → n ≤ source.length) :
    exponentPart? (source ++ r') = exponentPart? (source ++ r) := by
  cases source with
  | nil =>
    have none : exponentPart? r = none := Option.eq_none_iff_forall_ne_some.mpr fun (e, n) found =>
      absurd (short e n found) (Nat.not_le_of_gt (exponentPart?_pos found))
    rw [List.nil_append, List.nil_append, none, exponentPart?_eq_none, ← Bool.not_eq_true]
    rw [exponentPart?_eq_none, ← Bool.not_eq_true] at none
    exact fun starts => none (replaces.power starts)
  | cons c source =>
    by_cases minus : c = '-'
    · subst minus
      have digits : (source ++ r').takeWhile Char.isDigit = (source ++ r).takeWhile Char.isDigit :=
        digits_replace replaces fun nonempty => Nat.le_of_succ_le_succ (short _ _ (by simp only [List.cons_append, exponentPart?, nonempty]; rfl))
      simp only [List.cons_append, exponentPart?, digits]
    by_cases plus : c = '+'
    · subst plus
      have digits : (source ++ r').takeWhile Char.isDigit = (source ++ r).takeWhile Char.isDigit :=
        digits_replace replaces fun nonempty => Nat.le_of_succ_le_succ (short _ _ (by simp only [List.cons_append, exponentPart?, nonempty]; rfl))
      simp only [List.cons_append, exponentPart?, digits]
    · have unsigned (cs : List Char) : exponentPart? (c :: cs) =
          if ((c :: cs).takeWhile Char.isDigit).isEmpty then none
          else some ((Text.foldDigits 0 ((c :: cs).takeWhile Char.isDigit) : Int), ((c :: cs).takeWhile Char.isDigit).length) := by
        rw [exponentPart?]
        · rintro _ ⟨⟩
          exact minus rfl
        · rintro _ ⟨⟩
          exact plus rfl
      have digits : (c :: source ++ r').takeWhile Char.isDigit = (c :: source ++ r).takeWhile Char.isDigit :=
        digits_replace replaces fun nonempty => short _ _ (by rw [List.cons_append, unsigned, ← List.cons_append, nonempty]; rfl)
      simp only [List.cons_append] at digits ⊢
      rw [unsigned, unsigned, digits]

theorem markedExponent?_replace (short : ∀ e n, markedExponent? (source ++ r) = some (e, n) → n ≤ source.length) :
    markedExponent? (source ++ r') = markedExponent? (source ++ r) := by
  cases source with
  | nil =>
    have none : markedExponent? r = none := Option.eq_none_iff_forall_ne_some.mpr fun (e, n) found =>
      absurd (short e n found) (Nat.not_le_of_gt (markedExponent?_pos found))
    rw [List.nil_append, List.nil_append, none, markedExponent?_eq_none, ← Bool.not_eq_true]
    rw [markedExponent?_eq_none, ← Bool.not_eq_true] at none
    exact fun starts => none (replaces.exponent starts)
  | cons c source =>
    rw [List.cons_append, List.cons_append, markedExponent?, markedExponent?]
    split
    · next mark =>
      rw [exponentPart?_replace replaces]
      intro e n found
      exact Nat.le_of_succ_le_succ (short e (n + 1) (by rw [List.cons_append, markedExponent?, if_pos mark, found]; rfl))
    · rfl

theorem decimalNumber_replace (length : (decimalNumber (source ++ r)).2 ≤ source.length) :
    decimalNumber (source ++ r') = decimalNumber (source ++ r) := by
  unfold decimalNumber at length ⊢
  dsimp only at length ⊢
  have whole : (source ++ r').takeWhile Char.isDigit = (source ++ r).takeWhile Char.isDigit :=
    takeWhile_replace replaces.digit (by omega)
  have dropped {n : Nat} (fits : n ≤ source.length) (r : List Char) : (source ++ r).drop n = source.drop n ++ r :=
    List.drop_append_of_le_length fits
  rw [whole]
  generalize ((source ++ r).takeWhile Char.isDigit) = digits at length ⊢
  have fits : digits.length ≤ source.length := by omega
  rw [dropped fits] at length ⊢
  rw [dropped fits]
  have fraction : fractionPart? (source.drop digits.length ++ r') = fractionPart? (source.drop digits.length ++ r) := by
    refine fractionPart?_replace replaces fun ds found => ?_
    rw [found, Option.elim_some] at length
    rw [List.length_drop]
    omega
  rw [fraction]
  have fitsFraction : digits.length + (fractionPart? (source.drop digits.length ++ r)).elim 0 (·.length + 1) ≤
      source.length := by omega
  generalize fractionPart? (source.drop digits.length ++ r) = fraction? at length fitsFraction ⊢
  have fits' : fraction?.elim 0 (·.length + 1) ≤ (source.drop digits.length).length := by
    rw [List.length_drop]
    omega
  have dropped' (r : List Char) : (source.drop digits.length ++ r).drop (fraction?.elim 0 (·.length + 1)) =
      (source.drop digits.length).drop (fraction?.elim 0 (·.length + 1)) ++ r := List.drop_append_of_le_length fits'
  rw [dropped'] at length ⊢
  rw [dropped']
  rw [markedExponent?_replace replaces]
  intro e n found
  rw [found, Option.elim_some] at length
  rw [List.length_drop, List.length_drop]
  omega

omit replaces in
theorem hexNumber?_eq_none {c : Char} {cs : List Char} :
    hexNumber? (c :: cs) = none ↔ ¬ (c = '0' ∧ startsHexadecimal cs = true) := by
  unfold hexNumber?
  split
  · next x cs same =>
    cases same
    simp only [takeWhile_isEmpty, startsHexadecimal, Bool.not_not]
    cases (decide (x = 'x') || decide (x = 'X')) && Option.any Text.isHexDigit cs.head? <;> simp
  · next other =>
    simp only [true_iff]
    rintro ⟨rfl, starts⟩
    cases cs with
    | nil => cases starts
    | cons x cs => exact other x cs rfl

omit replaces in
theorem hexNumber?_two_le {cs : List Char} {kind : TokenKind} {n : Nat} (found : hexNumber? cs = some (kind, n)) :
    2 ≤ n := by
  unfold hexNumber? at found
  split at found
  · dsimp only at found
    split at found
    · simp only [Option.some.injEq, Prod.mk.injEq] at found
      omega
    · cases found
  · cases found

theorem hexNumber?_replace {c : Char} {tail : List Char}
    (short : ∀ kind n, hexNumber? (c :: (tail ++ r)) = some (kind, n) → n ≤ tail.length + 1) :
    hexNumber? (c :: (tail ++ r')) = hexNumber? (c :: (tail ++ r)) := by
  cases found : hexNumber? (c :: (tail ++ r)) with
  | none =>
    rw [hexNumber?_eq_none] at found ⊢
    exact fun ⟨isZero, starts⟩ => found ⟨isZero, (replaces.append tail).hexadecimal starts⟩
  | some number =>
    obtain ⟨kind, n⟩ := number
    have length := short kind n found
    have starts : hexNumber? (c :: (tail ++ r)) ≠ none := by simp [found]
    rw [ne_eq, hexNumber?_eq_none, Decidable.not_not] at starts
    obtain ⟨rfl, starts⟩ := starts
    cases tail with
    | nil => exact absurd length (Nat.not_le_of_gt (hexNumber?_two_le found))
    | cons x tail =>
      have digits : (tail ++ r').takeWhile Text.isHexDigit = (tail ++ r).takeWhile Text.isHexDigit := by
        refine takeWhile_replace replaces.hexDigit ?_
        simp only [List.cons_append, hexNumber?] at found
        split at found
        · simp only [Option.some.injEq, Prod.mk.injEq] at found
          obtain ⟨-, rfl⟩ := found
          simpa using length
        · cases found
      rw [← found]
      simp only [List.cons_append, hexNumber?, digits]

/-! ## Quoted texts and signs -/

omit replaces in
/-- What stands between two delimiters does not depend on what follows, unless the closing one can be doubled. -/
theorem exists_body_of_quotedBody {close : Char} {doubles escapes : Bool} {cs s : List Char} {n : Nat}
    (found : quotedBody close doubles escapes cs = some (s, n)) : ∃ body rest, cs = body ++ rest ∧ body.length = n ∧
      (doubles = true → rest.head? ≠ some close) ∧
      ∀ r', (doubles = true → r'.head? ≠ some close) → quotedBody close doubles escapes (body ++ r') = some (s, n) := by
  have closing (r' : List Char) (apart : doubles = true → r'.head? ≠ some close) :
      quotedBody close doubles escapes (close :: r') = some ([], 1) := by
    cases r' with
    | nil => rw [quotedBody, if_pos rfl]
    | cons next r' =>
      rw [quotedBody, if_pos rfl, if_neg]
      simpa using apart
  fun_induction quotedBody close doubles escapes cs generalizing s n with
  | case1 => cases found
  | case2 =>
    cases found
    exact ⟨[close], [], rfl, rfl, nofun, closing⟩
  | case3 => cases found
  | case4 next rest doubled ih =>
    obtain ⟨⟨s, n⟩, inner, same⟩ := Option.map_eq_some_iff.mp found
    cases same
    obtain ⟨body, rest, rfl, rfl, apart, replaced⟩ := ih inner
    simp only [Bool.and_eq_true, decide_eq_true_eq] at doubled
    refine ⟨close :: next :: body, rest, rfl, rfl, apart, fun r' apart' => ?_⟩
    rw [List.cons_append, List.cons_append, quotedBody, if_pos rfl, if_pos (by simp [doubled]), replaced r' apart']
    rfl
  | case5 next rest single =>
    cases found
    refine ⟨[close], next :: rest, rfl, rfl, ?_, closing⟩
    simpa using single
  | case6 c next rest other escaped ih =>
    obtain ⟨⟨s, n⟩, inner, same⟩ := Option.map_eq_some_iff.mp found
    cases same
    obtain ⟨body, rest, rfl, rfl, apart, replaced⟩ := ih inner
    refine ⟨c :: next :: body, rest, rfl, rfl, apart, fun r' apart' => ?_⟩
    rw [List.cons_append, List.cons_append, quotedBody, if_neg other, if_pos escaped, replaced r' apart']
    rfl
  | case7 c next rest other plain ih =>
    obtain ⟨⟨s, n⟩, inner, same⟩ := Option.map_eq_some_iff.mp found
    cases same
    obtain ⟨body, rest, split, rfl, apart, replaced⟩ := ih inner
    refine ⟨c :: body, rest, by rw [split]; rfl, rfl, apart, fun r' apart' => ?_⟩
    have onward := replaced r' apart'
    cases body with
    | nil => exact nomatch replaced [] nofun
    | cons b body =>
      rw [List.cons_append, List.cons_append, quotedBody, if_neg other, if_neg plain, ← List.cons_append, onward]
      rfl

omit replaces in
/-- A sign goes on with signs only, so no other one is read before a text that begins with none, or with the sign that followed. -/
theorem symbol?_replace {c : Char} {s : Symbol} (signs : ∀ x, isOwnSign x = true → isSpace x = false → isWordStart x = false →
      r'.head? = some x → r.head? = some x) (found : symbol? c (tail ++ r) = some (s, tail.length)) :
    symbol? c (tail ++ r') = some (s, tail.length) := by
  have sign {x : Char} (apart : ∀ rest, r ≠ x :: rest) (own : isOwnSign x = true)
      (other : isSpace x = false ∧ isWordStart x = false) : ∀ rest, r' ≠ x :: rest := by
    rintro rest rfl
    obtain ⟨rest, before⟩ := List.head?_eq_some_iff.mp (signs x own other.1 other.2 rfl)
    exact apart rest before
  have none (length : 0 = tail.length) : tail = [] := List.length_eq_zero_iff.mp length.symm
  have one (length : 1 = tail.length) : ∃ x, tail = [x] := List.length_eq_one_iff.mp length.symm
  unfold symbol? at found
  split at found <;> simp only [Option.some.injEq, Prod.mk.injEq, reduceCtorEq] at found
  all_goals obtain ⟨rfl, length⟩ := found
  -- signs of which the longest form was found, or that have one form only
  case h_1 split =>
    obtain ⟨x, y, rfl⟩ := List.length_eq_two.mp length.symm
    cases split
    rfl
  case h_3 split | h_4 split | h_6 split | h_7 split | h_9 split | h_11 split | h_12 split | h_14 split =>
    obtain ⟨x, rfl⟩ := one length
    cases split
    rfl
  -- signs that would be other ones before some sign
  case h_2 apart split =>
    obtain ⟨x, rfl⟩ := one length
    cases split
    rw [List.singleton_append, symbol?]
    · rfl
    · exact sign apart (by decide) (by decide)
  case h_5 isLe isLtGt isShift =>
    obtain rfl := none length
    have notEq := sign isLe (by decide) (by decide)
    rw [List.nil_append, symbol?]
    · rfl
    · exact fun tail => notEq ('>' :: tail)
    · exact notEq
    · exact sign isLtGt (by decide) (by decide)
    · exact sign isShift (by decide) (by decide)
  case h_8 isGe isShift =>
    obtain rfl := none length
    rw [List.nil_append, symbol?]
    · rfl
    · exact sign isGe (by decide) (by decide)
    · exact sign isShift (by decide) (by decide)
  case h_10 apart | h_13 apart =>
    obtain rfl := none length
    rw [List.nil_append, symbol?]
    · rfl
    · exact sign apart (by decide) (by decide)
  all_goals
    obtain rfl := none length
    rfl

/-! ## The lexeme at the front of a text -/

theorem numberLexeme_replace {kind : TokenKind}
    (front : numberLexeme (c :: (tail ++ r)) = .token kind tail.length) :
    numberLexeme (c :: (tail ++ r')) = .token kind tail.length := by
  have length : ((hexNumber? (c :: (tail ++ r))).getD (decimalNumber (c :: (tail ++ r)))).2 - 1 = tail.length :=
    (Lexeme.token.inj front).2
  have hex : hexNumber? (c :: (tail ++ r')) = hexNumber? (c :: (tail ++ r)) := by
    refine hexNumber?_replace replaces fun kind n found => ?_
    rw [found] at length
    exact Nat.le_add_of_sub_le (Nat.le_of_eq length)
  rw [← front, numberLexeme, numberLexeme, hex]
  cases found : hexNumber? (c :: (tail ++ r)) with
  | some number => rfl
  | none =>
    rw [found] at length
    have decimal : decimalNumber (c :: tail ++ r') = decimalNumber (c :: tail ++ r) :=
      decimalNumber_replace replaces (Nat.le_add_of_sub_le (Nat.le_of_eq length))
    rw [List.cons_append, List.cons_append] at decimal
    rw [Option.getD_none, Option.getD_none, decimal]

theorem wordLexeme_replace {kind : TokenKind} (front : wordLexeme d c (tail ++ r) = .token kind tail.length) :
    wordLexeme d c (tail ++ r') = .token kind tail.length := by
  have length := (Lexeme.token.inj front).2
  have same : (tail ++ r').takeWhile isWordPart = (tail ++ r).takeWhile isWordPart :=
    takeWhile_replace replaces.wordPart (Nat.le_of_eq length)
  rw [← front, wordLexeme, wordLexeme, same]

omit replaces in
theorem variableLexeme_of_mark (cs : List Char) : variableLexeme ('@' :: cs) =
    if (cs.takeWhile isVariablePart).isEmpty then .fault .emptyVariableName 1
    else .token (.variable (String.ofList ('@' :: cs.takeWhile isVariablePart)))
      (1 + (cs.takeWhile isVariablePart).length) := rfl

omit replaces in
theorem variableLexeme_of_name {cs : List Char} (plain : cs.head? ≠ some '@') : variableLexeme cs =
    if (cs.takeWhile isVariablePart).isEmpty then .fault .emptyVariableName 0
    else .token (.variable (String.ofList (cs.takeWhile isVariablePart))) (cs.takeWhile isVariablePart).length := by
  simp [variableLexeme, plain]

theorem variableLexeme_replace {kind : TokenKind} (front : variableLexeme (tail ++ r) = .token kind tail.length) :
    variableLexeme (tail ++ r') = .token kind tail.length := by
  have named {source : List Char} (short : ((source ++ r).takeWhile isVariablePart).length = source.length) :
      (source ++ r').takeWhile isVariablePart = (source ++ r).takeWhile isVariablePart :=
    takeWhile_replace replaces.variablePart (Nat.le_of_eq short)
  by_cases mark : (tail ++ r).head? = some '@'
  · cases tail with
    | nil =>
      obtain ⟨cs, rfl⟩ := List.head?_eq_some_iff.mp mark
      rw [List.nil_append, variableLexeme_of_mark] at front
      split at front
      · cases front
      · have := (Lexeme.token.inj front).2
        simp only [List.length_nil] at this
        omega
    | cons x tail =>
      cases mark
      rw [← front, List.cons_append, List.cons_append, variableLexeme_of_mark, variableLexeme_of_mark]
      rw [List.cons_append, variableLexeme_of_mark] at front
      split at front
      · cases front
      · have length := (Lexeme.token.inj front).2
        rw [named]
        simp only [List.length_cons] at length
        omega
  · have plain : (tail ++ r').head? ≠ some '@' :=
      fun mark' => mark ((replaces.append tail).head?_of_sign mark' (by decide) rfl)
    rw [← front, variableLexeme_of_name plain, variableLexeme_of_name mark]
    rw [variableLexeme_of_name mark] at front
    split at front
    · cases front
    · rw [named (Lexeme.token.inj front).2]

theorem quotedBody_replace {close : Char} {doubles escapes : Bool} {s : List Char}
    (own : isOwnSign close = true) (noSpace : isSpace close = false)
    (found : quotedBody close doubles escapes (tail ++ r) = some (s, tail.length)) :
    quotedBody close doubles escapes (tail ++ r') = some (s, tail.length) := by
  obtain ⟨body, rest, split, length, apart, replaced⟩ := exists_body_of_quotedBody found
  obtain ⟨rfl, rfl⟩ := List.append_inj split length.symm
  exact replaced r' fun doubled closing => apart doubled (replaces.head?_of_sign closing own noSpace)

theorem stringLexeme_replace {start start' : Nat} {quote : Char} {kind : TokenKind}
    (own : isOwnSign quote = true) (noSpace : isSpace quote = false)
    (front : stringLexeme d start quote (tail ++ r) = .token kind tail.length) :
    stringLexeme d start' quote (tail ++ r') = .token kind tail.length := by
  rw [stringLexeme] at front ⊢
  split at front
  · next s n found =>
    obtain ⟨rfl, rfl⟩ := Lexeme.token.inj front
    rw [quotedBody_replace replaces own noSpace found]
  · cases front

theorem quotedIdentifierLexeme_replace {start start' : Nat} {style : QuoteStyle} {kind : TokenKind}
    (front : quotedIdentifierLexeme start style (tail ++ r) = .token kind tail.length) :
    quotedIdentifierLexeme start' style (tail ++ r') = .token kind tail.length := by
  have own : isOwnSign style.closing = true := by cases style <;> decide
  have noSpace : isSpace style.closing = false := by cases style <;> rfl
  rw [quotedIdentifierLexeme] at front ⊢
  split at front
  · next s n found =>
    obtain ⟨rfl, rfl⟩ := Lexeme.token.inj front
    rw [quotedBody_replace replaces own noSpace found]
  · cases front

omit replaces in
theorem startsDigit_eq_getD (cs : List Char) : startsDigit cs = (cs.head?.map Char.isDigit).getD false := by
  cases cs <;> rfl

omit replaces in
/-- A number that begins with its point has a digit behind it. -/
theorem numberLexeme_point_pos {cs : List Char} {kind : TokenKind} {more : Nat} (digit : startsDigit cs = true)
    (front : numberLexeme ('.' :: cs) = .token kind more) : 0 < more := by
  have fraction : fractionPart? ('.' :: cs) ≠ none := by
    rw [ne_eq, fractionPart?_eq_none, startsFraction, digit]
    decide
  obtain ⟨digits, found⟩ := Option.ne_none_iff_exists'.mp fraction
  have nonempty : digits ≠ [] := by
    simp only [fractionPart?] at found
    split at found
    · cases found
    · next some =>
      cases found
      exact fun none => some (List.isEmpty_iff.mpr none)
  have decimal : hexNumber? ('.' :: cs) = none := rfl
  have noWhole : ('.' :: cs).takeWhile Char.isDigit = [] := rfl
  have length := (Lexeme.token.inj front).2
  simp [decimal, decimalNumber, noWhole, found] at length
  have := List.length_pos_iff.mpr nonempty
  omega

/-- A lexeme stays what it is when another text takes the place of what follows it. -/
theorem lexeme_replace {start start' : Nat} {kind : TokenKind}
    (front : lexeme d start c (tail ++ r) = .token kind tail.length) :
    lexeme d start' c (tail ++ r') = .token kind tail.length := by
  rw [lexeme] at front ⊢
  by_cases isString : c = '\''
  · rw [if_pos isString] at front ⊢
    exact stringLexeme_replace replaces (isString ▸ by decide) (isString ▸ rfl) front
  rw [if_neg isString] at front ⊢
  by_cases isDouble : (c = '"' && d.doubleQuotedStrings) = true
  · rw [if_pos isDouble] at front ⊢
    simp only [Bool.and_eq_true, decide_eq_true_eq] at isDouble
    exact stringLexeme_replace replaces (isDouble.1 ▸ by decide) (isDouble.1 ▸ rfl) front
  rw [if_neg isDouble] at front ⊢
  by_cases isName : c = '"'
  · rw [if_pos isName] at front ⊢
    exact quotedIdentifierLexeme_replace replaces front
  rw [if_neg isName] at front ⊢
  by_cases isBacktick : c = '\x60'
  · rw [if_pos isBacktick] at front ⊢
    exact quotedIdentifierLexeme_replace replaces front
  rw [if_neg isBacktick] at front ⊢
  by_cases isBracket : c = '['
  · rw [if_pos isBracket] at front ⊢
    exact quotedIdentifierLexeme_replace replaces front
  rw [if_neg isBracket] at front ⊢
  simp only [← startsDigit_eq_getD, Bool.or_eq_true, Bool.and_eq_true, decide_eq_true_eq] at front ⊢
  split at front
  · next isNumber =>
    rw [if_pos]
    · exact numberLexeme_replace replaces front
    · refine isNumber.imp_right ?_
      rintro ⟨rfl, digit⟩
      refine ⟨rfl, ?_⟩
      cases tail with
      | nil => exact absurd (numberLexeme_point_pos digit front) (Nat.lt_irrefl _)
      | cons x tail => exact digit
  next noNumber =>
  rw [if_neg fun isNumber => noNumber (isNumber.imp_right (And.imp_right (replaces.append tail).digit))]
  by_cases isWord : isWordStart c = true
  · rw [if_pos isWord] at front ⊢
    exact wordLexeme_replace replaces front
  rw [if_neg isWord] at front ⊢
  by_cases isVariable : c = '@'
  · rw [if_pos isVariable] at front ⊢
    exact variableLexeme_replace replaces front
  rw [if_neg isVariable] at front ⊢
  cases sign : symbol? c (tail ++ r) with
  | none =>
    rw [sign] at front
    dsimp only at front
    split at front
    · cases front
    · split at front <;> cases front
  | some found =>
    obtain ⟨s, n⟩ := found
    rw [sign] at front
    obtain ⟨rfl, rfl⟩ := Lexeme.token.inj front
    rw [symbol?_replace (fun x own noSpace _ next => replaces.head?_of_sign next own noSpace) sign]

end Replace

/-! ## Tokens behind one another -/

theorem fractionPart?_length_le {cs ds : List Char} (found : fractionPart? cs = some ds) : ds.length + 1 ≤ cs.length := by
  unfold fractionPart? at found
  split at found
  · dsimp only at found
    split at found
    · cases found
    · cases found
      exact Nat.succ_le_succ ((List.takeWhile_prefix _).length_le)
  · cases found

theorem exponentPart?_length_le {cs : List Char} {e : Int} {n : Nat} (found : exponentPart? cs = some (e, n)) :
    n ≤ cs.length := by
  unfold exponentPart? at found
  split at found <;> dsimp only at found <;> split at found <;> cases found
  · exact Nat.succ_le_succ ((List.takeWhile_prefix _).length_le)
  · exact Nat.succ_le_succ ((List.takeWhile_prefix _).length_le)
  · exact (List.takeWhile_prefix _).length_le

theorem markedExponent?_length_le {cs : List Char} {e : Int} {n : Nat} (found : markedExponent? cs = some (e, n)) :
    n ≤ cs.length := by
  cases cs with
  | nil => cases found
  | cons c cs =>
    rw [markedExponent?] at found
    split at found
    · obtain ⟨⟨e, m⟩, inner, same⟩ := Option.map_eq_some_iff.mp found
      cases same
      exact Nat.succ_le_succ (exponentPart?_length_le inner)
    · cases found

theorem decimalNumber_length_le (cs : List Char) : (decimalNumber cs).2 ≤ cs.length := by
  unfold decimalNumber
  dsimp only
  have whole : (cs.takeWhile Char.isDigit).length ≤ cs.length := (List.takeWhile_prefix _).length_le
  generalize cs.takeWhile Char.isDigit = digits at whole ⊢
  have fraction : (fractionPart? (cs.drop digits.length)).elim 0 (·.length + 1) ≤ (cs.drop digits.length).length := by
    cases found : fractionPart? (cs.drop digits.length) with
    | none => exact Nat.zero_le _
    | some ds => exact fractionPart?_length_le found
  generalize (fractionPart? (cs.drop digits.length)).elim 0 (·.length + 1) = n at fraction ⊢
  have exponent : (markedExponent? ((cs.drop digits.length).drop n)).elim 0 (·.2) ≤
      ((cs.drop digits.length).drop n).length := by
    cases found : markedExponent? ((cs.drop digits.length).drop n) with
    | none => exact Nat.zero_le _
    | some part => exact markedExponent?_length_le found
  rw [List.length_drop] at fraction exponent
  rw [List.length_drop] at exponent
  omega

theorem hexNumber?_length_le {cs : List Char} {kind : TokenKind} {n : Nat} (found : hexNumber? cs = some (kind, n)) :
    n ≤ cs.length := by
  unfold hexNumber? at found
  split at found
  · next x rest =>
    dsimp only at found
    split at found
    · simp only [Option.some.injEq, Prod.mk.injEq] at found
      obtain ⟨-, rfl⟩ := found
      have : (rest.takeWhile Text.isHexDigit).length ≤ rest.length := (List.takeWhile_prefix _).length_le
      simpa using this
    · cases found
  · cases found

theorem symbol?_length_le {c : Char} {rest : List Char} {s : Symbol} {n : Nat} (found : symbol? c rest = some (s, n)) :
    n ≤ rest.length := by
  unfold symbol? at found
  split at found <;> simp only [Option.some.injEq, Prod.mk.injEq, reduceCtorEq] at found
  all_goals
    obtain ⟨-, rfl⟩ := found
    simp

/-- A token does not reach past the end of the text. -/
theorem lexeme_length_le {start : Nat} {c : Char} {rest : List Char} {kind : TokenKind} {more : Nat}
    (front : lexeme d start c rest = .token kind more) : more ≤ rest.length := by
  have body {close : Char} {doubles escapes : Bool} {s : List Char} {n : Nat}
      (found : quotedBody close doubles escapes rest = some (s, n)) : n ≤ rest.length := by
    obtain ⟨body, after, rfl, rfl, -⟩ := exists_body_of_quotedBody found
    simp
  cases readBy_of_lexeme front with
  | string read =>
    rw [stringLexeme] at read
    split at read
    · next found =>
      cases read
      exact body found
    · cases read
  | quoted style _ _ read =>
    rw [quotedIdentifierLexeme] at read
    split at read
    · next found =>
      cases read
      exact body found
    · cases read
  | number read =>
    have length : ((hexNumber? (c :: rest)).getD (decimalNumber (c :: rest))).2 - 1 = more := (Lexeme.token.inj read).2
    cases found : hexNumber? (c :: rest) with
    | none =>
      rw [found, Option.getD_none] at length
      have := decimalNumber_length_le (c :: rest)
      rw [List.length_cons] at this
      omega
    | some number =>
      rw [found, Option.getD_some] at length
      have := hexNumber?_length_le found
      rw [List.length_cons] at this
      omega
  | word _ read =>
    rw [← (Lexeme.token.inj read).2]
    exact (List.takeWhile_prefix _).length_le
  | atSign read =>
    by_cases mark : rest.head? = some '@'
    · obtain ⟨cs, rfl⟩ := List.head?_eq_some_iff.mp mark
      rw [variableLexeme_of_mark] at read
      split at read
      · cases read
      · rw [← (Lexeme.token.inj read).2, List.length_cons, Nat.add_comm]
        exact Nat.succ_le_succ ((List.takeWhile_prefix _).length_le)
    · rw [variableLexeme_of_name mark] at read
      split at read
      · cases read
      · rw [← (Lexeme.token.inj read).2]
        exact (List.takeWhile_prefix _).length_le
  | sign s found _ => exact symbol?_length_le found

/-- Where a token starts matters for faults only. -/
theorem lexeme_start {start : Nat} {c : Char} {rest : List Char} {kind : TokenKind} {more : Nat}
    (front : lexeme d start c rest = .token kind more) (start' : Nat) : lexeme d start' c rest = .token kind more := by
  have length := lexeme_length_le front
  have same : (rest.take more).length = more := by rw [List.length_take, Nat.min_eq_left length]
  have replaced : lexeme d start' c (rest.take more ++ rest.drop more) = .token kind (rest.take more).length :=
    lexeme_replace (.like (.refl (rest.drop more))) (by rwa [List.take_append_drop, same])
  rwa [List.take_append_drop, same] at replaced

/-- A stretch at the front of a text is a token of the given kind, with the given text behind it. -/
structure Spells (d : Dialect) (source rest : List Char) (kind : TokenKind) : Prop where
  stops : Stops d (source ++ rest)
  front : ∃ c tail, source = c :: tail ∧ ∀ start, lexeme d start c (tail ++ rest) = .token kind tail.length

/-- A token stays what it is when another text takes the place of what follows it. -/
theorem Spells.replace {source r r' : List Char} {kind : TokenKind} (spells : Spells d source r kind)
    (replaces : Replaces r r') : Spells d source r' kind := by
  obtain ⟨stops, c, tail, rfl, front⟩ := spells
  refine ⟨?_, c, tail, rfl, fun start => lexeme_replace replaces (front start)⟩
  rw [List.cons_append, stops_cons_iff] at stops ⊢
  obtain ⟨noSpace, noHash, noLine, noBlock⟩ := stops
  have behind := replaces.append tail
  exact ⟨noSpace, noHash, fun ⟨is, next⟩ => noLine ⟨is, behind.head?_of_sign next (by decide) rfl⟩,
    fun ⟨is, next⟩ => noBlock ⟨is, behind.head?_of_sign next (by decide) rfl⟩⟩

/-- The first token of a text is spelled by a stretch of it. -/
theorem spells_of_gap {p q : Place} {cs rest : List Char} {c : Char} {kind : TokenKind} {more : Nat}
    (gap : skipGap d .outside p cs = .ok (q, c :: rest)) (front : lexeme d q.offset c rest = .token kind more) :
    Spells d (c :: rest.take more) (rest.drop more) kind := by
  have length : (rest.take more).length = more := by rw [List.length_take, Nat.min_eq_left (lexeme_length_le front)]
  refine ⟨?_, c, rest.take more, rfl, fun start => ?_⟩
  · rw [List.cons_append, List.take_append_drop]
    exact stops_of_skipGap gap
  · rw [List.take_append_drop, length]
    exact lexeme_start front start

end SqlSharding.Sql
