import SqlSharding.Proofs.Qualifiers

/-!
# Names that are passed over

Some clauses are passed over, whatever stands in them: groups in parentheses behind some words, hints, and locking clauses. Their
names are not read, and a qualifier among them is not recorded.
-/

namespace SqlSharding.Sql

variable {q : Token}

/-! ## Parentheses -/

/-- How deep some tokens leave the parentheses, given how deep these were before. -/
def depthBehind (depth : Nat) (ts : List Token) : Nat := ts.foldl (fun n t => Walk.depthAfter n t.kind) depth

theorem depthBehind_append (depth : Nat) (ts us : List Token) :
    depthBehind depth (ts ++ us) = depthBehind (depthBehind depth ts) us := List.foldl_append

/-- The parentheses are open behind each of some tokens. -/
def Unclosed (depth : Nat) (ts : List Token) : Prop := ∀ us, us <+: ts → us ≠ [] → depthBehind depth us ≠ 0

theorem Unclosed.of_prefix {depth : Nat} {ts us : List Token} (unclosed : Unclosed depth ts) (isPrefix : us <+: ts) :
    Unclosed depth us :=
  fun vs first => unclosed vs (first.trans isPrefix)

theorem Unclosed.nil {depth : Nat} : Unclosed depth [] := fun _ isPrefix nonempty => absurd (List.prefix_nil.mp isPrefix) nonempty

theorem Unclosed.concat {depth : Nat} {ts : List Token} {t : Token} (unclosed : Unclosed depth ts)
    (isOpen : depthBehind depth (ts ++ [t]) ≠ 0) : Unclosed depth (ts ++ [t]) := by
  intro us first nonempty
  rcases List.prefix_concat_iff.mp first with rfl | inside
  · exact isOpen
  · exact unclosed us inside nonempty

theorem Unclosed.append {depth : Nat} {ts us : List Token} (first : Unclosed depth ts) (second : Unclosed (depthBehind depth ts) us) :
    Unclosed depth (ts ++ us) := by
  intro vs isPrefix nonempty
  rcases List.prefix_or_prefix_of_prefix isPrefix (List.prefix_append ts us) with inFirst | ⟨ws, rfl⟩
  · exact first vs inFirst nonempty
  · rcases List.eq_nil_or_concat ws with rfl | ⟨_, _, rfl⟩
    · exact first _ (by simp) nonempty
    · rw [depthBehind_append]
      exact second _ ((List.prefix_append_right_inj ts).mp isPrefix) (by simp)

/-- The names among some tokens stand in parentheses that these tokens open. -/
def InGroup (ts : List Token) : Prop :=
  ∀ front t back, ts = front ++ t :: back → t.kind.isIdentifier = true → front ≠ [] ∧ Unclosed 0 front

/-- The words that may go on a `TOP` clause. -/
inductive TopWords : List Token → Prop
  | none : TopWords []
  | percent {t : Token} : t.kind.isWord "PERCENT" = true → TopWords [t]
  | ties {percent : List Token} {word t : Token} : TopWords percent → word.kind = .keyword .with → t.kind.isWord "TIES" = true →
      TopWords (percent ++ [word, t])

/-- The tokens of a `TOP` clause. -/
inductive TopTokens : List Token → Prop
  | clause {group words : List Token} {word : Token} : word.kind = .keyword .top → InGroup group → TopWords words →
      TopTokens (word :: (group ++ words))

/-- The tokens of a `DELETE` before its targets. -/
inductive DeleteHead : List Token → Prop
  | words {words : List Token} : BeginsWith [.keyword .delete] words → (∀ t ∈ words, t.kind.endsClause = false) → DeleteHead words
  | top {words top : List Token} : DeleteHead words → TopTokens top → DeleteHead (words ++ top)

variable {d : Dialect} {p : Place} {before left later taken : List Token} {s u : WalkState}

/-- A name may be passed without being read: in the parentheses of a `TOP`, of a table hint or of the columns of a join, before those
of an index hint, in a locking clause, as a word that goes on a `TOP` clause, and as a part of a target of a `DELETE`. -/
inductive Overlooked (q : Token) : List Token → Prop
  | group {front group : List Token} {word : Token} : word.kind ∈ [.keyword .top, .keyword .using, .keyword .with] → group ≠ [] →
      Unclosed 0 group → Overlooked q (front ++ word :: group)
  | hint {front words group : List Token} {word kind : Token} : word.kind ∈ [.keyword .use, .keyword .ignore, .keyword .force] →
      kind.kind ∈ [.keyword .index, .keyword .key] → (∀ t ∈ words, t.kind ≠ .symbol .leftParen) → Unclosed 0 group →
      Overlooked q (front ++ word :: kind :: (words ++ group))
  | locking {front words : List Token} {word : Token} : word.kind = .keyword .for → (∀ t ∈ words, t.kind.endsEverything = false) →
      Overlooked q (front ++ word :: words)
  | lock {front words : List Token} {word next : Token} : word.kind.isWord "LOCK" = true → next.kind = .keyword .in →
      (∀ t ∈ words, t.kind.endsEverything = false) → Overlooked q (front ++ word :: next :: words)
  | percent {front : List Token} : q.kind.isWord "PERCENT" = true → (∃ t ∈ front, t.kind = .keyword .top) → Overlooked q front
  | ties {front : List Token} {word : Token} : q.kind.isWord "TIES" = true → word.kind = .keyword .with → Overlooked q (front ++ [word])
  | target {head targets : List Token} : DeleteHead head → (∀ t ∈ targets, t.kind.endsClause = false) → Overlooked q (head ++ targets)

namespace Poised

variable (proper : Proper left) (poised : Poised d p before left s)

include proper poised

theorem closeParentheses {depth : Nat} {atEnd : Walk Unit} (fails : Walk.Fails atEnd) {v : Unit}
    (run : Walk.closeParentheses depth atEnd s = .ok v u) :
    ∃ taken later, Passed d p before left s taken later u ∧ ∀ front t back, taken = front ++ t :: back → Unclosed depth front := by
  obtain ⟨n, run, -⟩ := Walk.map_eq_ok_iff.mp run
  -- a round passes one more token
  have round {n m : Nat} {again : Bool} {s₁ u : WalkState} {taken later : List Token}
      (passed : Passed d p before left s taken later s₁) (isDepth : n = depthBehind depth taken)
      (run : (do
        if ← Walk.isAtEnd then
          atEnd
          return (false, n)
        else
          let after := Walk.depthAfter n (← Walk.kind)
          discard Walk.advance
          return (after ≠ 0, after)) s₁ = .ok (again, m) u) :
      ∃ t later, Passed d p before left s (taken ++ [t]) later u ∧ m = depthBehind depth (taken ++ [t]) ∧ again = decide (m ≠ 0) := by
    obtain ⟨ended, _, ⟨⟩, run⟩ := Walk.bind_eq_ok_iff.mp run
    split at run
    · obtain ⟨_, _, never, -⟩ := Walk.bind_eq_ok_iff.mp run
      exact absurd never (fails _ _ _)
    next inside =>
    obtain ⟨k, _, ⟨⟩, run⟩ := Walk.bind_eq_ok_iff.mp run
    obtain ⟨_, s₂, advances, run⟩ := Walk.bind_eq_ok_iff.mp run
    obtain ⟨x, advances, -⟩ := Walk.map_eq_ok_iff.mp advances
    obtain ⟨same, rfl⟩ := Walk.pure_eq_ok_iff.mp run
    cases same
    obtain ⟨later', passed', rfl⟩ :=
      passed.poised.advance (passed.proper proper) (by simpa [Cursor.isAtEnd] using inside) advances
    refine ⟨_, later', passed.trans passed', ?_, rfl⟩
    rw [depthBehind, List.foldl_concat, ← depthBehind, ← isDepth]
    rfl
  refine Walk.repeatFrom_induction
    (J := fun n u => ∃ taken later, Passed d p before left s taken later u ∧ n = depthBehind depth taken ∧ Unclosed depth taken)
    (K := fun _ u => ∃ taken later, Passed d p before left s taken later u ∧
      ∀ front t back, taken = front ++ t :: back → Unclosed depth front) ?_ ?_ run ⟨[], left, .refl poised, rfl, .nil⟩
  · rintro n s₁ m u ⟨taken, later, passed, isDepth, unclosed⟩ run
    obtain ⟨t, later', passed', isDepth', goesOn⟩ := round passed isDepth run
    exact ⟨_, later', passed', isDepth', unclosed.concat (isDepth' ▸ of_decide_eq_true goesOn.symm)⟩
  · rintro n s₁ m u ⟨taken, later, passed, isDepth, unclosed⟩ run
    obtain ⟨t, later', passed', -, -⟩ := round passed isDepth run
    refine ⟨_, later', passed', fun front x back split => unclosed.of_prefix ?_⟩
    rcases List.prefix_concat_iff.mp ⟨x :: back, split.symm⟩ with rfl | inside
    · simp at split
    · exact inside

/-- A group in parentheses is passed to the sign that closes it. -/
theorem skipParentheses {v : Unit} (run : Walk.skipParentheses s = .ok v u) :
    ∃ taken later, Passed d p before left s taken later u ∧ InGroup taken := by
  obtain ⟨isGroup, _, ⟨⟩, run⟩ := Walk.bind_eq_ok_iff.mp run
  split at run
  · next isOpening =>
    have atOpening : s.cursor.kind = .symbol .leftParen := TokenKind.sameShape_symbol.mp isOpening
    obtain ⟨c, _, ⟨⟩, run⟩ := Walk.bind_eq_ok_iff.mp run
    obtain ⟨taken, later, passed, unclosed⟩ := poised.closeParentheses proper Walk.failAt_fails run
    refine ⟨taken, later, passed, fun front t back split isName => ⟨?_, unclosed front t back split⟩⟩
    rintro rfl
    obtain ⟨x, rest, isFirst, atFirst⟩ := poised.head (by simp [atOpening])
    rw [passed.split, split] at isFirst
    cases isFirst
    rw [← atFirst, show s.cursor.current.kind = _ from atOpening] at isName
    cases isName
  · obtain ⟨-, rfl⟩ := Walk.pure_eq_ok_iff.mp run
    exact ⟨[], left, .refl poised, by simp [InGroup]⟩

/-- What one round of a loop passes that goes on until a test holds. -/
theorem passUnless {test : TokenKind → Bool} (inside : test .endOfInput = true) {again : Bool}
    (run : (do
      if test (← Walk.kind) then return false
      else
        discard Walk.advance
        return true) s = .ok again u) :
    if again then ∃ x later, Passed d p before left s [x] later u ∧ test x.kind = false else u = s := by
  obtain ⟨k, _, ⟨⟩, run⟩ := Walk.bind_eq_ok_iff.mp run
  split at run
  · obtain ⟨rfl, rfl⟩ := Walk.pure_eq_ok_iff.mp run
    rfl
  · next other =>
    obtain ⟨_, s₁, advances, run⟩ := Walk.bind_eq_ok_iff.mp run
    obtain ⟨x, advances, -⟩ := Walk.map_eq_ok_iff.mp advances
    obtain ⟨rfl, rfl⟩ := Walk.pure_eq_ok_iff.mp run
    obtain ⟨later, passed, rfl⟩ := poised.advance proper (fun same => other (same ▸ inside)) advances
    exact ⟨_, later, passed, Bool.eq_false_iff.mpr other⟩

theorem skipToList {v : Unit} (run : Walk.skipToList s = .ok v u) :
    ∃ taken later, Passed d p before left s taken later u ∧ ∀ t ∈ taken, t.kind ≠ .symbol .leftParen := by
  have round {before left : List Token} {s u : WalkState} {again : Bool} (proper : Proper left) (poised : Poised d p before left s)
      (run : (do
        if ← Walk.check (.symbol .leftParen) then return false
        else if ← Walk.isAtEnd then Walk.failExpected .indexList
        else
          discard Walk.advance
          return true) s = .ok again u) :
      if again then ∃ x later, Passed d p before left s [x] later u ∧ x.kind ≠ .symbol .leftParen else u = s := by
    obtain ⟨isGroup, _, ⟨⟩, run⟩ := Walk.bind_eq_ok_iff.mp run
    split at run
    · obtain ⟨rfl, rfl⟩ := Walk.pure_eq_ok_iff.mp run
      rfl
    next noGroup =>
    obtain ⟨ended, _, ⟨⟩, run⟩ := Walk.bind_eq_ok_iff.mp run
    split at run
    · cases run
    · next inside =>
      obtain ⟨_, s₁, advances, run⟩ := Walk.bind_eq_ok_iff.mp run
      obtain ⟨x, advances, -⟩ := Walk.map_eq_ok_iff.mp advances
      obtain ⟨rfl, rfl⟩ := Walk.pure_eq_ok_iff.mp run
      obtain ⟨later, passed, rfl⟩ := poised.advance proper (by simpa [Cursor.isAtEnd] using inside) advances
      exact ⟨_, later, passed, fun same => noGroup (TokenKind.sameShape_symbol.mpr same)⟩
  obtain ⟨taken, later, passed, noGroup, -⟩ := poised.passWhile proper round run
  exact ⟨taken, later, passed, noGroup⟩

end Poised

/-! ## Clauses that are passed over -/

theorem TopWords.names {words front back : List Token} (isWords : TopWords words) (split : words = front ++ q :: back)
    (isName : q.kind.isIdentifier = true) :
    q.kind.isWord "PERCENT" = true ∨ q.kind.isWord "TIES" = true ∧ ∃ init word, front = init ++ [word] ∧ word.kind = .keyword .with := by
  induction isWords generalizing front back with
  | none => simp at split
  | @percent t isWord =>
    exact .inl ((stands_of_singleton split).1 ▸ isWord)
  | @ties percent word t _ isWith isTies ih =>
    rcases stands_of_append split with ⟨mid, isFirst, -⟩ | ⟨pre, rfl, isSecond⟩
    · exact ih isFirst
    · rcases pre with _ | ⟨x, _ | ⟨y, pre⟩⟩
      · cases isSecond
        rw [isWith] at isName
        cases isName
      · cases isSecond
        exact .inr ⟨isTies, percent, word, rfl, isWith⟩
      · simp at isSecond

/-- A group that begins with a bound. -/
theorem InGroup.of_bound {opening t : Token} {n : Nat} {b : PlacedBound} {rest : List Token}
    (isOpening : opening.kind = .symbol .leftParen) (spelled : b.Spelled n t)
    (inside : ∀ front x back, rest = front ++ x :: back → x.kind.isIdentifier = true → Unclosed 1 front) :
    InGroup ([opening] ++ [t] ++ rest) := by
  have isBound : t.kind.isIdentifier = false ∧ Walk.depthAfter 1 t.kind = 1 := by
    cases spelled with
    | literal kind | placeholder kind => rw [kind]; exact ⟨rfl, rfl⟩
  have opened : depthBehind 0 [opening] = 1 := show Walk.depthAfter 0 opening.kind = 1 by rw [isOpening]; rfl
  have depth : depthBehind 0 ([opening] ++ [t]) = 1 := by
    rw [depthBehind_append, opened]
    exact isBound.2
  have unclosed : Unclosed 0 ([opening] ++ [t]) := by
    have first : Unclosed 0 [opening] := Unclosed.nil.concat (by rw [List.nil_append, opened]; exact Nat.one_ne_zero)
    exact first.concat (by rw [depth]; exact Nat.one_ne_zero)
  intro front x back split isName
  rcases stands_of_append split with ⟨mid, isFirst, -⟩ | ⟨pre, rfl, isSecond⟩
  · have member : x ∈ [opening] ++ [t] := isFirst ▸ by simp
    rcases List.mem_pair.mp member with rfl | rfl
    · rw [isOpening] at isName
      cases isName
    · exact absurd isName (by simp [isBound.1])
  · exact ⟨by simp, unclosed.append (depth ▸ inside pre x back isSecond isName)⟩

namespace Poised

variable (proper : Proper left) (poised : Poised d p before left s)

include proper poised

theorem topGroup_inGroup {b? : Option PlacedBound} (isGroup : s.cursor.kind = .symbol .leftParen)
    (run : Walk.topGroup s = .ok b? u) : ∃ taken later, Passed d p before left s taken later u ∧ InGroup taken := by
  obtain ⟨next, s₁, peeks, body⟩ := Walk.bind_eq_ok_iff.mp run
  obtain ⟨-, rfl⟩ := Walk.peek_eq_ok_iff.mp peeks
  split at body
  · obtain ⟨_, s₂, passes, body⟩ := Walk.bind_eq_ok_iff.mp body
    obtain ⟨opening, advances, -⟩ := Walk.map_eq_ok_iff.mp passes
    obtain ⟨later₁, passed₁, atOpening⟩ := poised.advance proper (by simp [isGroup]) advances
    have isOpening : opening.kind = .symbol .leftParen := atOpening ▸ isGroup
    obtain ⟨b, s₃, reads, body⟩ := Walk.bind_eq_ok_iff.mp body
    obtain ⟨t, later₂, passed₂, spelled⟩ := passed₁.poised.bound (passed₁.proper proper) reads
    have passed := passed₁.trans passed₂
    obtain ⟨isClosed, s₄, eats, ending⟩ := Walk.bind_eq_ok_iff.mp body
    have eaten := passed.poised.eat (passed.proper proper) rfl eats
    cases isClosed with
    | true =>
      obtain ⟨closing, later₃, passed₃, isClosing⟩ := eaten
      obtain ⟨rfl, rfl⟩ := Walk.pure_eq_ok_iff.mp ending
      refine ⟨_, later₃, passed.trans passed₃, .of_bound isOpening spelled fun front x back split isName => ?_⟩
      rw [(stands_of_singleton split).1, isClosing] at isName
      cases isName
    | false =>
      obtain rfl : s₄ = s₃ := eaten
      obtain ⟨_, s₅, closes, ending⟩ := Walk.bind_eq_ok_iff.mp ending
      obtain ⟨rfl, rfl⟩ := Walk.pure_eq_ok_iff.mp ending
      obtain ⟨rest, later₃, passed₃, inside⟩ := passed.poised.closeParentheses (passed.proper proper) Walk.failExpected_fails closes
      exact ⟨_, later₃, passed.trans passed₃, .of_bound isOpening spelled fun front x back split _ => inside front x back split⟩
  · obtain ⟨_, s₂, skips, body⟩ := Walk.bind_eq_ok_iff.mp body
    obtain ⟨rfl, rfl⟩ := Walk.pure_eq_ok_iff.mp body
    exact poised.skipParentheses proper skips

theorem passPercent {found : Bool} (run : Walk.passWord "PERCENT" s = .ok found u) :
    ∃ taken later, Passed d p before left s taken later u ∧ TopWords taken := by
  rcases Walk.passWord_eq_ok_iff.mp run with ⟨-, -, rfl⟩ | ⟨isWord, -, t, advances⟩
  · exact ⟨[], left, .refl poised, .none⟩
  · obtain ⟨later, passed, rfl⟩ := poised.advance proper (by intro same; rw [same] at isWord; cases isWord) advances
    exact ⟨_, later, passed, .percent isWord⟩

omit poised in
theorem passTies {words mid : List Token} {s₁ : WalkState} {v : Unit} (passed : Passed d p before left s words mid s₁)
    (isWords : TopWords words) (run : Walk.passTies s₁ = .ok v u) :
    ∃ taken later, Passed d p before left s taken later u ∧ TopWords taken := by
  rcases Walk.passTies_eq_ok_iff.mp run with ⟨-, rfl⟩ | ⟨isWith, k, ahead, isTies, word, s₂, t, first, second⟩
  · exact ⟨words, mid, passed, isWords⟩
  · have atWith : s₁.cursor.kind = .keyword .with := TokenKind.sameShape_keyword.mp isWith
    obtain ⟨mid, passed₁, isFirst⟩ := passed.poised.advance (passed.proper proper) (by simp [atWith]) first
    replace passed := passed.trans passed₁
    obtain rfl : s₂.cursor.kind = k := Except.ok.inj ((Walk.peek_of_advance first).symm.trans ahead)
    obtain ⟨later, passed₂, rfl⟩ :=
      passed.poised.advance (passed.proper proper) (by intro same; rw [same] at isTies; cases isTies) second
    replace passed := passed.trans passed₂
    rw [List.append_assoc] at passed
    exact ⟨_, later, passed, .ties isWords (isFirst ▸ atWith) isTies⟩

/-- The words that are passed behind the bound of a `TOP` clause. -/
theorem topEnd {r : Bool} {b? : Option PlacedBound} {v : Unit} (run : Walk.topEnd r b? s = .ok v u) :
    ∃ taken later, left = taken ++ later ∧ Poised d p (before ++ taken) later u ∧ TopWords taken ∧
      SameNames s.statement u.statement := by
  obtain ⟨percent, s₁, words, run⟩ := Walk.bind_eq_ok_iff.mp run
  obtain ⟨_, s₂, ties, run⟩ := Walk.bind_eq_ok_iff.mp run
  obtain ⟨taken, mid, passed, isWords⟩ := poised.passPercent proper words
  obtain ⟨taken, later, ⟨split, poised, unchanged⟩, isWords⟩ := passTies proper passed isWords ties
  refine ⟨taken, later, split, ?_⟩
  rw [← unchanged]
  cases r with
  | false =>
    obtain ⟨-, rfl⟩ := Walk.pure_eq_ok_iff.mp run
    exact ⟨poised, isWords, .refl _⟩
  | true =>
    cases b? with
    | none =>
      obtain ⟨-, rfl⟩ := Walk.pure_eq_ok_iff.mp run
      exact ⟨poised, isWords, .refl _⟩
    | some b =>
      cases run
      exact ⟨poised, isWords, .paginate _ _ _ _⟩

theorem topTokens {r : Bool} {v : Unit} (run : Walk.topClause r s = .ok v u) :
    ∃ taken later, left = taken ++ later ∧ Poised d p (before ++ taken) later u ∧ TopTokens taken ∧
      SameNames s.statement u.statement := by
  rw [Walk.topClause_eq] at run
  obtain ⟨_, s₁, expects, run⟩ := Walk.bind_eq_ok_iff.mp run
  obtain ⟨word, mid, passed, isTop⟩ := poised.expect proper rfl expects
  have ended {group later : List Token} {s₂ : WalkState} {b? : Option PlacedBound}
      (passed' : Passed d p (before ++ [word]) mid s₁ group later s₂) (inGroup : InGroup group)
      (run : Walk.topEnd r b? s₂ = .ok v u) :
      ∃ taken later, left = taken ++ later ∧ Poised d p (before ++ taken) later u ∧ TopTokens taken ∧
        SameNames s.statement u.statement := by
    have both := passed.trans passed'
    obtain ⟨words, later', rfl, poised', isWords, names⟩ := both.poised.topEnd (both.proper proper) run
    exact ⟨word :: (group ++ words), later', by simp [both.split], by simpa using poised', .clause isTop inGroup isWords,
      both.unchanged ▸ names⟩
  obtain ⟨isGroup, s₂, ⟨⟩, run⟩ := Walk.bind_eq_ok_iff.mp run
  split at run
  · next isGroup =>
    obtain ⟨b?, s₂, reads, run⟩ := Walk.bind_eq_ok_iff.mp run
    obtain ⟨group, later, passed', inGroup⟩ :=
      passed.poised.topGroup_inGroup (passed.proper proper) (TokenKind.sameShape_symbol.mp isGroup) reads
    exact ended passed' inGroup run
  · obtain ⟨b?, s₂, reads, run⟩ := Walk.bind_eq_ok_iff.mp run
    obtain ⟨b, readsBound, rfl⟩ := Walk.map_eq_ok_iff.mp reads
    obtain ⟨t, later, passed', spelled⟩ := passed.poised.bound (passed.proper proper) readsBound
    refine ended passed' (fun front x back split isName => ?_) run
    obtain ⟨rfl, -⟩ := stands_of_singleton split
    cases spelled with
    | literal kind | placeholder kind =>
      rw [kind] at isName
      cases isName

end Poised

/-! ## Qualifiers that are passed over -/

/-- Among tokens that are passed the qualifiers stand where names are passed over. -/
def PassesOver (before taken later : List Token) : Prop :=
  ∀ front q back, taken = front ++ q :: back → Qualifies q (back ++ later) → Overlooked q (before ++ front)

namespace PassesOver

theorem nil : PassesOver before [] later := fun _ _ _ split => by simp at split

/-- A token in front that is no name. -/
theorem cons {t : Token} (other : t.kind.isIdentifier = false) (rest : PassesOver (before ++ [t]) taken later) :
    PassesOver before (t :: taken) later := by
  intro front q back split qualifies
  rcases List.cons_eq_append_iff.mp split with ⟨rfl, same⟩ | ⟨front, rfl, same⟩
  · cases same
    rw [qualifies.isIdentifier] at other
    cases other
  · simpa using rest front q back same qualifies

theorem single {t : Token} (other : t.kind.isIdentifier = false) : PassesOver before [t] later := cons other nil

end PassesOver

/-- Behind a word that has a group in parentheses its names are passed over. -/
theorem InGroup.passesOver {word : Token} (inGroup : InGroup taken)
    (isWord : word.kind ∈ [.keyword .top, .keyword .using, .keyword .with]) : PassesOver (before ++ [word]) taken later := by
  intro front q back split qualifies
  obtain ⟨nonempty, unclosed⟩ := inGroup front q back split qualifies.isIdentifier
  rw [List.append_assoc]
  exact .group isWord nonempty unclosed

theorem TopTokens.passesOver (isTop : TopTokens taken) : PassesOver before taken later := by
  cases isTop with
  | clause isTop inGroup isWords =>
    refine .cons (by rw [isTop]; rfl) fun front q back split qualifies => ?_
    rcases stands_of_append split with ⟨mid, isFirst, -⟩ | ⟨pre, rfl, isSecond⟩
    · obtain ⟨nonempty, unclosed⟩ := inGroup front q mid isFirst qualifies.isIdentifier
      rw [List.append_assoc]
      exact .group (by simp [isTop]) nonempty unclosed
    · rcases isWords.names isSecond qualifies.isIdentifier with isPercent | ⟨isTies, init, last, rfl, isWith⟩
      · exact .percent isPercent ⟨_, by simp, isTop⟩
      · rw [← List.append_assoc, ← List.append_assoc]
        exact .ties isTies isWith

namespace Poised

variable (proper : Proper left) (poised : Poised d p before left s)

include proper poised

omit poised in
/-- The columns that a join names behind `USING`. -/
theorem using_passesOver {mid : List Token} {word : Token} {v : Unit} {s₁ : WalkState} (passed : Passed d p before left s [word] mid s₁)
    (isUsing : word.kind = .keyword .using) (run : Walk.skipParentheses s₁ = .ok v u) :
    ∃ taken later, Passed d p before left s taken later u ∧ PassesOver before taken later := by
  obtain ⟨group, later, passed', inGroup⟩ := passed.poised.skipParentheses (passed.proper proper) run
  exact ⟨_, later, passed.trans passed', .cons (by rw [isUsing]; rfl) (inGroup.passesOver (by simp [isUsing]))⟩

/-- One round of table hints. -/
theorem hint_passesOver {again : Bool}
    (run : (do
      if ← Walk.eatAny [.keyword .use, .keyword .ignore, .keyword .force] then
        discard (Walk.expectAny [.keyword .index, .keyword .key] .indexOrKey)
        Walk.skipToList
        Walk.skipParentheses
        return true
      else if ← Walk.check (.keyword .with) then
        if (← Walk.peek) = TokenKind.symbol .leftParen then
          discard Walk.advance
          Walk.skipParentheses
          return true
        else return false
      else return false) s = .ok again u) :
    u = s ∨ ∃ word taken later, Passed d p before left s (word :: taken) later u ∧ PassesOver before (word :: taken) later ∧
      word.kind ≠ .symbol .dot := by
  obtain ⟨isHint, s₁, eats, more⟩ := Walk.bind_eq_ok_iff.mp run
  have eaten := poised.eatAny proper (by decide) eats
  cases isHint with
  | true =>
    obtain ⟨word, mid, passed, isWord⟩ := eaten
    obtain ⟨_, s₂, expects, more⟩ := Walk.bind_eq_ok_iff.mp more
    obtain ⟨kind, mid, passed₁, isKind⟩ := passed.poised.expectAny (passed.proper proper) (by decide) expects
    replace passed := passed.trans passed₁
    obtain ⟨_, s₃, skips, more⟩ := Walk.bind_eq_ok_iff.mp more
    obtain ⟨words, mid, passed₂, noGroup⟩ := passed.poised.skipToList (passed.proper proper) skips
    replace passed := passed.trans passed₂
    obtain ⟨_, s₄, skips, more⟩ := Walk.bind_eq_ok_iff.mp more
    obtain ⟨rfl, rfl⟩ := Walk.pure_eq_ok_iff.mp more
    obtain ⟨group, later, passed₃, inGroup⟩ := passed.poised.skipParentheses (passed.proper proper) skips
    replace passed := passed.trans passed₃
    have firstWord : ∀ k ∈ [TokenKind.keyword .use, .keyword .ignore, .keyword .force], k.isIdentifier = false ∧ k ≠ .symbol .dot := by
      decide
    have secondWord : ∀ k ∈ [TokenKind.keyword .index, .keyword .key], k.isIdentifier = false := by decide
    refine .inr ⟨word, kind :: (words ++ group), later, by simpa using passed, ?_, (firstWord _ isWord).2⟩
    refine .cons (firstWord _ isWord).1 (.cons (secondWord _ isKind) fun front q back split qualifies => ?_)
    rcases stands_of_append split with ⟨words', isFirst, -⟩ | ⟨pre, rfl, isSecond⟩
    · have inWords : ∀ t ∈ front, t.kind ≠ .symbol .leftParen := fun t member => noGroup t (by simp [isFirst, member])
      have overlooked : Overlooked q (before ++ word :: kind :: (front ++ [])) := .hint isWord isKind inWords .nil
      simpa using overlooked
    · have unclosed := (inGroup pre q back isSecond qualifies.isIdentifier).2
      have overlooked : Overlooked q (before ++ word :: kind :: (words ++ pre)) := .hint isWord isKind noGroup unclosed
      simpa using overlooked
  | false =>
    obtain rfl : s₁ = s := eaten
    obtain ⟨isWith, _, ⟨⟩, ending⟩ := Walk.bind_eq_ok_iff.mp more
    split at ending
    · next isWith =>
      have atWith : s₁.cursor.kind = .keyword .with := TokenKind.sameShape_keyword.mp isWith
      obtain ⟨next, s₂, peeks, last⟩ := Walk.bind_eq_ok_iff.mp ending
      obtain ⟨-, rfl⟩ := Walk.peek_eq_ok_iff.mp peeks
      split at last
      · obtain ⟨_, s₃, advances, last⟩ := Walk.bind_eq_ok_iff.mp last
        obtain ⟨word, advances, -⟩ := Walk.map_eq_ok_iff.mp advances
        obtain ⟨mid, passed, atWord⟩ := poised.advance proper (by simp [atWith]) advances
        have isWith : word.kind = .keyword .with := atWord ▸ atWith
        obtain ⟨_, s₄, skips, last⟩ := Walk.bind_eq_ok_iff.mp last
        obtain ⟨rfl, rfl⟩ := Walk.pure_eq_ok_iff.mp last
        obtain ⟨group, later, passed', inGroup⟩ := passed.poised.skipParentheses (passed.proper proper) skips
        refine .inr ⟨word, group, later, passed.trans passed', ?_, TokenKind.ne_symbol_of_keyword isWith⟩
        exact .cons (by rw [isWith]; rfl) (inGroup.passesOver (by simp [isWith]))
      · obtain ⟨rfl, rfl⟩ := Walk.pure_eq_ok_iff.mp last
        exact .inl rfl
    · obtain ⟨rfl, rfl⟩ := Walk.pure_eq_ok_iff.mp ending
      exact .inl rfl

/-- The word of a locking clause stands before `IN`. -/
theorem behind_lock (isLock : Walk.atLock s = .ok true s) :
    ∃ word next rest, left = word :: next :: rest ∧ word.kind.isWord "LOCK" = true ∧ next.kind = .keyword .in := by
  have isWord := (Walk.atLock_stays isLock).2 rfl
  obtain ⟨word, rest, rfl, atWord⟩ := poised.head (by intro same; rw [same] at isWord; cases isWord)
  obtain ⟨_, _, ⟨⟩, run⟩ := Walk.bind_eq_ok_iff.mp isLock
  rw [if_pos isWord] at run
  obtain ⟨k, _, peeks, run⟩ := Walk.bind_eq_ok_iff.mp run
  obtain ⟨ahead, -⟩ := Walk.peek_eq_ok_iff.mp peeks
  have isIn : k = .keyword .in := of_decide_eq_true (Walk.pure_eq_ok_iff.mp run).1
  rw [isIn, poised] at ahead
  cases rest with
  | nil => cases (Cursor.along_peek_last proper).symm.trans ahead
  | cons next rest =>
    have same := (Cursor.along_peek proper).symm.trans ahead
    exact ⟨word, next, rest, rfl, atWord ▸ isWord, Except.ok.inj same⟩

/-- A locking clause is passed to the end of what encloses it. -/
theorem lockingClause_passesOver {v : Unit} (run : Walk.lockingClause s = .ok v u) :
    u = s ∨ ∃ word taken later, Passed d p before left s (word :: taken) later u ∧ PassesOver before (word :: taken) later ∧
      word.kind ≠ .symbol .dot := by
  have passes (isLocking : Bool) (begins : isLocking = true → s.cursor.kind = .keyword .for ∨ Walk.atLock s = .ok true s)
      (run : (if isLocking then Walk.repeatWhile do
          if (← Walk.kind).endsEverything then return false
          else
            discard Walk.advance
            return true
        else pure ()) s = .ok v u) :
      u = s ∨ ∃ word taken later, Passed d p before left s (word :: taken) later u ∧ PassesOver before (word :: taken) later ∧
        word.kind ≠ .symbol .dot := by
    cases isLocking with
    | false => exact .inl (Walk.pure_eq_ok_iff.mp run).2.symm
    | true =>
      obtain ⟨taken, later, passed, inside, -⟩ := poised.passWhile proper (fun proper poised run => poised.passUnless proper rfl run) run
      cases taken with
      | nil =>
        have sameCursor : u.cursor = s.cursor := by
          rw [show u.cursor = _ from passed.poised, show s.cursor = _ from poised, passed.split, List.append_nil]
          rfl
        exact .inl (congr (congrArg WalkState.mk sameCursor) passed.unchanged)
      | cons word taken =>
        refine .inr ⟨word, taken, later, passed, ?_⟩
        have insideTaken {ts : List Token} (isSublist : ts.Sublist (word :: taken)) : ∀ t ∈ ts, t.kind.endsEverything = false :=
          fun t member => inside t (isSublist.subset member)
        rcases begins rfl with isFor | isLock
        · have isFor : word.kind = .keyword .for := by rw [← isFor, poised, passed.split]; rfl
          refine ⟨.cons (by rw [isFor]; rfl) fun front q back split _ => ?_, TokenKind.ne_symbol_of_keyword isFor⟩
          rw [List.append_assoc]
          exact .locking isFor (insideTaken (split ▸ by simp))
        · obtain ⟨_, next, rest, whole, isWord, isIn⟩ := poised.behind_lock proper isLock
          obtain ⟨rfl, rest'⟩ := List.cons_eq_cons.mp (passed.split.symm.trans whole)
          refine ⟨fun front q back split qualifies => ?_, by intro same; rw [same] at isWord; cases isWord⟩
          rcases front with _ | ⟨x, _ | ⟨y, front⟩⟩
          · -- the word is followed by no dot
            cases split
            obtain ⟨t, _, isNext, isDot⟩ := qualifies.beginsWith
            cases isNext.symm.trans rest'
            rw [isIn] at isDot
            cases List.mem_singleton.mp isDot
          · cases split
            cases rest'
            have isName := qualifies.isIdentifier
            rw [isIn] at isName
            cases isName
          · cases split
            cases rest'
            exact .lock isWord isIn (insideTaken (((List.sublist_append_left front _).cons next).cons word))
  obtain ⟨isFor, _, ⟨⟩, run⟩ := Walk.bind_eq_ok_iff.mp run
  split at run
  · next isFor => exact passes true (fun _ => .inl (TokenKind.sameShape_keyword.mp isFor)) run
  · obtain ⟨isLocking, t, looks, ending⟩ := Walk.bind_eq_ok_iff.mp run
    obtain ⟨rfl, -⟩ := Walk.atLock_stays looks
    exact passes isLocking (fun isLock => .inr (isLock ▸ looks)) ending

end Poised

end SqlSharding.Sql
