import SqlSharding.Proofs.Spellings

/-!
# Words behind gaps and signs

Neither a gap nor a sign goes on with a word. So behind them any word can take the place of another one, whereas behind a number or a
variable the new word must resemble the old one.
-/

namespace SqlSharding.Sql

variable {d : Dialect} {source blank r r' : List Char} {c : Char}

/-- A text that begins with a word. -/
def startsWord (cs : List Char) : Bool := cs.head?.any isWordStart

theorem noDigit_of_isWordPart {c : Char} (other : isWordPart c = false) : c.isDigit = false := by
  rw [← Bool.not_eq_true] at other ⊢
  exact fun digit => other (isWordPart_of_isDigit digit)

theorem head?_of_startsWord {x : Char} (word : startsWord r' = true) (next : r'.head? = some x) : isWordStart x = true := by
  rwa [startsWord, next, Option.any_some] at word

theorem startsWord_append (word : startsWord source = true) : startsWord (source ++ r) = true := by
  cases source with
  | nil => cases word
  | cons x source => exact word

theorem startsDigit_of_startsWord (word : startsWord r' = true) : startsDigit r' = false := by
  cases r' with
  | nil => rfl
  | cons x r' => exact isDigit_of_isWordStart (head?_of_startsWord word rfl)

/-! ## Signs -/

/-- Behind a character that is no part of a word, a text can be replaced by one that begins with no digit. -/
theorem Resembles.of_noDigit (sign : isWordPart c = false) (noDigit : startsDigit r' = false) : Resembles (c :: r) (c :: r') := by
  have other {x : Char} (part : isWordPart x = true) : c ≠ x := by
    rintro rfl
    rw [part] at sign
    cases sign
  refine ⟨.some (.refl c), fun starts => ?_, fun starts => ?_, fun starts => ?_, fun starts => ?_⟩
  · simp [startsFraction, noDigit] at starts
  · simp [startsPower, noDigit, noDigit_of_isWordPart sign] at starts
  · simp [startsExponent, other (show isWordPart 'e' = true by decide), other (show isWordPart 'E' = true by decide)] at starts
  · simp [startsHexadecimal, other (show isWordPart 'x' = true by decide), other (show isWordPart 'X' = true by decide)] at starts

/-- No character of a sign is a part of a word. -/
theorem isWordPart_of_symbol? {tail : List Char} {s : Symbol} (found : symbol? c (tail ++ r) = some (s, tail.length)) :
    ∀ x ∈ c :: tail, isWordPart x = false := by
  suffices signs : (c :: tail).all (fun x => !isWordPart x) = true by simpa using signs
  have none (length : 0 = tail.length) : tail = [] := List.length_eq_zero_iff.mp length.symm
  have one (length : 1 = tail.length) : ∃ x, tail = [x] := List.length_eq_one_iff.mp length.symm
  unfold symbol? at found
  split at found <;> simp only [Option.some.injEq, Prod.mk.injEq, reduceCtorEq] at found
  all_goals obtain ⟨rfl, length⟩ := found
  case h_1 split =>
    obtain ⟨x, y, rfl⟩ := List.length_eq_two.mp length.symm
    cases split
    rfl
  case h_2 split | h_3 split | h_4 split | h_6 split | h_7 split | h_9 split | h_11 split | h_12 split | h_14 split =>
    obtain ⟨x, rfl⟩ := one length
    cases split
    rfl
  all_goals
    obtain rfl := none length
    rfl

/-- A sign is read at its first character, unless that is the point of a number. -/
theorem lexeme_of_symbol? {start : Nat} {rest : List Char} {s : Symbol} {more : Nat} (found : symbol? c rest = some (s, more))
    (sign : isWordPart c = false) (noDigit : c = '.' → startsDigit rest = false) : lexeme d start c rest = .token (.symbol s) more := by
  have other {x : Char} (noSign : symbol? x rest = none) : c ≠ x := by
    rintro rfl
    rw [noSign] at found
    cases found
  have noNumber : ¬ (c.isDigit || (c = '.' && (rest.head?.map Char.isDigit).getD false)) = true := by
    rw [← startsDigit_eq_getD]
    simpa [noDigit_of_isWordPart sign] using noDigit
  have noWord : ¬ isWordStart c = true := by
    intro starts
    rw [isWordPart_of_isWordStart starts] at sign
    cases sign
  have double : c ≠ '"' := other rfl
  rw [lexeme, if_neg (other rfl), if_neg (by simp [double]), if_neg double, if_neg (other rfl), if_neg (other rfl), if_neg noNumber,
    if_neg noWord, if_neg (other rfl), found]

/-- A sign stays what it is before a word, and what follows it makes no difference to what stands before it. -/
theorem Spells.symbol_word {s : Symbol} (spells : Spells d source r (.symbol s)) (word : startsWord r' = true) :
    Spells d source r' (.symbol s) ∧ Resembles (source ++ r) (source ++ r') := by
  obtain ⟨stops, c, tail, rfl, front⟩ := spells
  have found : symbol? c (tail ++ r) = some (s, tail.length) := readAs_of_lexeme (front 0)
  have signs := isWordPart_of_symbol? found
  have next {x : Char} (noWord : isWordStart x = false) (ahead : (tail ++ r').head? = some x) : (tail ++ r).head? = some x := by
    cases tail with
    | nil =>
      rw [head?_of_startsWord word ahead] at noWord
      cases noWord
    | cons y tail => exact ahead
  have noDigit : startsDigit (tail ++ r') = false := by
    cases tail with
    | nil => exact startsDigit_of_startsWord word
    | cons y tail => exact noDigit_of_isWordPart (signs y (by simp))
  refine ⟨⟨?_, c, tail, rfl, fun start => ?_⟩, ?_⟩
  · rw [List.cons_append, stops_cons_iff] at stops ⊢
    obtain ⟨noSpace, noHash, noLine, noBlock⟩ := stops
    exact ⟨noSpace, noHash, fun both => noLine ⟨both.1, next (by decide) both.2⟩,
      fun both => noBlock ⟨both.1, next (by decide) both.2⟩⟩
  · refine lexeme_of_symbol? (symbol?_replace (fun x _ _ noWord ahead => ?_) found) (signs c List.mem_cons_self) fun _ => noDigit
    rw [head?_of_startsWord word ahead] at noWord
    cases noWord
  · exact .of_noDigit (signs c List.mem_cons_self) noDigit

/-! ## Gaps -/

/-- A text that can stand in a gap: what a token begins right behind it is found there. -/
def Skipped (d : Dialect) (blank : List Char) : Prop :=
  ∀ r p, Stops d r → skipGap d .outside p (blank ++ r) = .ok (p.afterAll blank, r)

theorem IsGap.skipped {gap : List Char} (isGap : IsGap d true gap) : Skipped d gap := by
  intro r p stops
  rw [skipGap_append isGap nofun, stops]

theorem skipped_space : Skipped d [' '] := IsGap.skipped (.space rfl .nil)

/-- A gap resembles itself, whatever follows it. -/
theorem Skipped.resembles (gap : Skipped d blank) (nonempty : blank ≠ []) (r r' : List Char) :
    Resembles (blank ++ r) (blank ++ r') := by
  obtain ⟨c, rest, rfl⟩ := List.exists_cons_of_ne_nil nonempty
  have goes : ¬ Stops d (c :: (rest ++ ['a'])) := by
    intro stops
    have skipped := gap ['a'] .start (stops_of_isWordStart (by decide))
    rw [List.cons_append, stops .start] at skipped
    have same : c :: (rest ++ ['a']) = ['a'] := (Prod.mk.inj (Except.ok.inj skipped)).2
    simpa using congrArg List.length same
  have opens : isSpace c = true ∨ c = '#' ∨ c = '-' ∧ (rest ++ ['a']).head? = some '-' ∨ c = '/' := by
    by_contra none
    simp only [not_or] at none
    obtain ⟨noSpace, noHash, noLine, noBlock⟩ := none
    exact goes (stops_cons_iff.mpr ⟨Bool.eq_false_iff.mpr noSpace, fun both => noHash both.1, noLine, fun both => noBlock both.1⟩)
  rcases opens with blank | rfl | ⟨rfl, next⟩ | rfl
  · rcases eq_of_isSpace blank with rfl | rfl | rfl | rfl | rfl <;> exact .of_sign (by decide) (by decide)
  · exact .of_sign (by decide) (by decide)
  · cases rest with
    | nil => cases next
    | cons x rest =>
      cases next
      exact .of_noDigit (by decide) rfl
  · exact .of_sign (by decide) (by decide)

end SqlSharding.Sql
