import SqlSharding.Proofs.Operands

/-!
# Pagination clauses in the text

A pagination clause is one of a few runs of tokens. What a walk records of it are the bounds that these tokens spell.
-/

namespace SqlSharding.Sql

variable {d : Dialect} {p : Place} {before left mid later taken taken' : List Token} {s t u : WalkState}

/-! ## Recorded bounds -/

/-- The place of a bound if it is a literal. -/
def boundPoints (point : Span → Int64 → RewritePoint) : Option PlacedBound → List RewritePoint
  | some ⟨.literal n, span⟩ => [point span n]
  | _ => []

theorem Statement.addBoundPoint_eq (point : Span → Int64 → RewritePoint) (s : Statement) (b : Option PlacedBound) :
    s.addBoundPoint point b = { s with points := s.points ++ boundPoints point b } := by
  match b with
  | some ⟨.literal n, span⟩ => rfl
  | some ⟨.placeholder _, _⟩ => simp [addBoundPoint, boundPoints]
  | none => simp [addBoundPoint, boundPoints]

/-- Recording a pagination changes the points and the limit of a statement. -/
theorem Statement.paginate_eq (rowCount offset : Option PlacedBound) (rewritable : Bool) (s : Statement) :
    s.paginate rowCount offset rewritable =
      { s with
        points := s.points ++ (boundPoints .offset offset ++ boundPoints .rowCount rowCount)
        limit := some ⟨rowCount.map (·.bound), offset.map (·.bound), rewritable && s.kind = .select⟩ } := by
  rw [paginate, addBoundPoint_eq, addBoundPoint_eq, List.append_assoc]

/-! ## Bounds -/

/-- The numbers of the placeholders that a bound refers to. -/
def Bound.indices : Bound → List Nat
  | literal _ => []
  | placeholder i => [i]

/-- The token that spells a bound after the given number of placeholders. -/
inductive PlacedBound.Spelled (n : Nat) (t : Token) : PlacedBound → Prop
  | literal {i : Int64} : t.kind = .integer i → 0 ≤ i → Spelled n t ⟨.literal i, t.span⟩
  | placeholder : t.kind = .symbol .question → Spelled n t ⟨.placeholder n, t.span⟩

theorem PlacedBound.Spelled.indices_eq {n : Nat} {t : Token} {b : PlacedBound} (spelled : b.Spelled n t) :
    b.bound.indices = List.range' n (placeholders [t]) := by
  cases spelled with
  | literal kind =>
    rw [placeholders_other (by simp [kind])]
    rfl
  | placeholder kind =>
    rw [placeholders_question kind]
    rfl

/-- The tokens of `OFFSET o`, perhaps with `ROWS`. -/
inductive OffsetPart (n : Nat) : List Token → PlacedBound → Prop
  | bare {word t : Token} {o : PlacedBound} : word.kind = .keyword .offset → o.Spelled n t → OffsetPart n [word, t] o
  | rows {word t rows : Token} {o : PlacedBound} : word.kind = .keyword .offset → o.Spelled n t →
      rows.kind ∈ [.keyword .row, .keyword .rows] → OffsetPart n [word, t, rows] o

/-- The tokens of `FETCH NEXT n ROWS ONLY`. -/
inductive FetchPart (n : Nat) : List Token → PlacedBound → Prop
  | mk {word next t rows only : Token} {b : PlacedBound} : word.kind = .keyword .fetch →
      next.kind ∈ [.keyword .first, .keyword .next] → b.Spelled n t → rows.kind ∈ [.keyword .row, .keyword .rows] →
      only.kind = .keyword .only → FetchPart n [word, next, t, rows, only] b

/-- The tokens of a pagination clause after the given number of placeholders, with its row count and its offset. -/
inductive PageClause (n : Nat) : List Token → Option PlacedBound → Option PlacedBound → Prop
  | limit {word t : Token} {b : PlacedBound} : word.kind = .keyword .limit → b.Spelled n t →
      PageClause n [word, t] (some b) none
  | limitPair {word t comma u : Token} {o b : PlacedBound} : word.kind = .keyword .limit → o.Spelled n t →
      comma.kind = .symbol .comma → b.Spelled (n + placeholders [t]) u →
      PageClause n [word, t, comma, u] (some b) (some o)
  | limitOffset {word t offset u : Token} {b o : PlacedBound} : word.kind = .keyword .limit → b.Spelled n t →
      offset.kind = .keyword .offset → o.Spelled (n + placeholders [t]) u →
      PageClause n [word, t, offset, u] (some b) (some o)
  | offset {ts : List Token} {o : PlacedBound} : OffsetPart n ts o → PageClause n ts none (some o)
  | fetch {ts : List Token} {b : PlacedBound} : FetchPart n ts b → PageClause n ts (some b) none
  | offsetFetch {ts us : List Token} {o b : PlacedBound} : OffsetPart n ts o → FetchPart (n + placeholders ts) us b →
      PageClause n (ts ++ us) (some b) (some o)
  | top {word t : Token} {b : PlacedBound} : word.kind = .keyword .top → b.Spelled n t →
      PageClause n [word, t] (some b) none
  | topGroup {word opening t closing : Token} {b : PlacedBound} : word.kind = .keyword .top →
      opening.kind = .symbol .leftParen → b.Spelled n t → closing.kind = .symbol .rightParen →
      PageClause n [word, opening, t, closing] (some b) none

/-- Whether a parenthesis that has been opened holds a bound and nothing else. -/
def HoldsBound (n : Nat) (left : List Token) : Prop :=
  ∃ t closing rest, left = t :: closing :: rest ∧ (∃ b, PlacedBound.Spelled n t b) ∧ closing.kind = .symbol .rightParen

/-- Tokens that begin with a `TOP` clause without a bound: an expression in parentheses. -/
def TopExpression (n : Nat) (left : List Token) : Prop :=
  ∃ word opening rest, left = word :: opening :: rest ∧ word.kind = .keyword .top ∧ opening.kind = .symbol .leftParen ∧
    ¬ HoldsBound n rest

/-- The numbers of the placeholders among the bounds of a pagination. -/
def Limit.indices (l : Limit) : List Nat := l.offset.elim [] Bound.indices ++ l.rowCount.elim [] Bound.indices

namespace PageClause

variable {n : Nat} {ts : List Token}

theorem offsetPart_indices {o : PlacedBound} (part : OffsetPart n ts o) :
    o.bound.indices = List.range' n (placeholders ts) := by
  cases part with
  | bare word spelled => rw [placeholders_cons_other (by simp [word]), spelled.indices_eq]
  | @rows _ t rows _ word spelled isRows =>
    have plain : rows.kind ≠ .symbol .question := by
      intro same
      simp [same] at isRows
    rw [placeholders_cons_other (by simp [word]), placeholders_cons t, placeholders_other plain, Nat.add_zero,
      spelled.indices_eq]

theorem fetchPart_indices {b : PlacedBound} (part : FetchPart n ts b) :
    b.bound.indices = List.range' n (placeholders ts) := by
  obtain ⟨word, isNext, spelled, isRows, isOnly⟩ := part
  rename_i fetch next t rows only
  have plainNext : next.kind ≠ .symbol .question := by
    intro same
    simp [same] at isNext
  have plainRows : rows.kind ≠ .symbol .question := by
    intro same
    simp [same] at isRows
  rw [placeholders_cons_other (by simp [word]), placeholders_cons_other plainNext, placeholders_cons t,
    placeholders_cons_other plainRows, placeholders_other (t := only) (by simp [isOnly]), Nat.add_zero, spelled.indices_eq]

/-- The bounds of a clause refer to its placeholders. -/
theorem indices_perm {rowCount offset : Option PlacedBound} {rewritable : Bool} (clause : PageClause n ts rowCount offset) :
    (Limit.indices ⟨rowCount.map (·.bound), offset.map (·.bound), rewritable⟩).Perm
      (List.range' n (placeholders ts)) := by
  have pair {t u : Token} {b c : PlacedBound} (first : b.Spelled n t) (second : c.Spelled (n + placeholders [t]) u) :
      b.bound.indices ++ c.bound.indices = List.range' n (placeholders [t] + placeholders [u]) := by
    rw [first.indices_eq, second.indices_eq, List.range'_append_1]
  cases clause with
  | limit word spelled | top word spelled =>
    rw [placeholders_cons_other (by simp [word]), ← spelled.indices_eq]
    exact .refl _
  | @limitPair _ t comma u _ _ word first isComma second =>
    rw [placeholders_cons_other (by simp [word]), placeholders_cons t,
      placeholders_cons_other (t := comma) (by simp [isComma]),
      ← pair first second]
    exact .refl _
  | @limitOffset _ t offset u _ _ word first isOffset second =>
    rw [placeholders_cons_other (by simp [word]), placeholders_cons t,
      placeholders_cons_other (t := offset) (by simp [isOffset]),
      ← pair first second]
    exact List.perm_append_comm
  | offset part =>
    rw [← offsetPart_indices part]
    exact .of_eq (List.append_nil _)
  | fetch part =>
    rw [← fetchPart_indices part]
    exact .refl _
  | offsetFetch first second =>
    rw [placeholders_append, ← List.range'_append_1, ← offsetPart_indices first, ← fetchPart_indices second]
    exact .refl _
  | @topGroup _ opening t closing _ word isOpening spelled isClosing =>
    rw [placeholders_cons_other (by simp [word]), placeholders_cons_other (by simp [isOpening]), placeholders_cons t,
      placeholders_other (t := closing) (by simp [isClosing]), Nat.add_zero, ← spelled.indices_eq]
    exact .refl _

end PageClause

/-- What is recorded if it is to be recorded. -/
theorem Walk.recordIf_run {r : Bool} {f : Statement → Statement} {v : Unit}
    (run : (if r then Walk.record f else Pure.pure ()) s = .ok v u) :
    u.cursor = s.cursor ∧ u.statement = if r then f s.statement else s.statement := by
  cases r with
  | true =>
    cases run
    exact ⟨rfl, rfl⟩
  | false =>
    obtain ⟨-, rfl⟩ := Walk.pure_eq_ok_iff.mp run
    exact ⟨rfl, rfl⟩

namespace Poised

variable (proper : Proper left) (poised : Poised d p before left s)

include proper poised

theorem bound {b : PlacedBound} (run : Walk.bound s = .ok b u) :
    ∃ t later, Passed d p before left s [t] later u ∧ b.Spelled (placeholders before) t := by
  have passes {c : PlacedBound} (inside : s.cursor.kind ≠ .endOfInput)
      (run : (do discard Walk.advance; return c) s = .ok b u) :
      ∃ later, Passed d p before left s [s.cursor.current] later u ∧ b = c := by
    obtain ⟨_, s₁, passes, run⟩ := Walk.bind_eq_ok_iff.mp run
    obtain ⟨t, advances, -⟩ := Walk.map_eq_ok_iff.mp passes
    obtain ⟨rfl, rfl⟩ := Walk.pure_eq_ok_iff.mp run
    obtain ⟨later, passed, rfl⟩ := poised.advance proper inside advances
    exact ⟨later, passed, rfl⟩
  obtain ⟨c, _, ⟨⟩, run⟩ := Walk.bind_eq_ok_iff.mp run
  generalize isKind : s.cursor.kind = k at run
  cases k with
  | integer i =>
    dsimp only at run
    split at run
    · next nonneg =>
      obtain ⟨later, passed, rfl⟩ := passes (by simp [isKind]) run
      exact ⟨_, later, passed, .literal isKind nonneg⟩
    · cases run
  | symbol sign =>
    cases sign with
    | question =>
      obtain ⟨later, passed, rfl⟩ := passes (by simp [isKind]) run
      refine ⟨_, later, passed, ?_⟩
      rw [show s.cursor.parameterIndex = placeholders before by rw [poised, Cursor.along_parameterIndex]]
      exact .placeholder isKind
    | _ => cases run
  | _ => cases run

/-! ## Pagination clauses -/

/-- What follows the first bound of a `LIMIT`. -/
theorem limitBounds {n : Nat} {word t : Token} {first : PlacedBound} (isLimit : word.kind = .keyword .limit)
    (spelled : first.Spelled n t) (counted : placeholders before = n + placeholders [t])
    {bounds : PlacedBound × Option PlacedBound} (run : Walk.limitBounds first s = .ok bounds u) :
    ∃ taken later, Passed d p before left s taken later u ∧ PageClause n ([word, t] ++ taken) (some bounds.1) bounds.2 := by
  -- the second bound stands after one more token, which is no placeholder
  have second {x : Token} {mid : List Token} {s₁ s₂ : WalkState} {b : PlacedBound}
      (passed : Passed d p before left s [x] mid s₁) (plain : x.kind ≠ .symbol .question)
      (reads : Walk.bound s₁ = .ok b s₂) :
      ∃ y later, Passed d p before left s [x, y] later s₂ ∧ b.Spelled (n + placeholders [t]) y := by
    obtain ⟨y, later, passed', spelled⟩ := passed.poised.bound (passed.proper proper) reads
    refine ⟨y, later, passed.trans passed', ?_⟩
    rwa [placeholders_append, placeholders_other plain, Nat.add_zero, counted] at spelled
  obtain ⟨isPair, s₁, eats, ending⟩ := Walk.bind_eq_ok_iff.mp run
  have eaten := poised.eat proper rfl eats
  cases isPair with
  | true =>
    obtain ⟨comma, mid, passed, isComma⟩ := eaten
    obtain ⟨b, s₂, reads, ending⟩ := Walk.bind_eq_ok_iff.mp ending
    obtain ⟨rfl, rfl⟩ := Walk.pure_eq_ok_iff.mp ending
    obtain ⟨y, later, passed, spelled'⟩ := second passed (by simp [isComma]) reads
    exact ⟨_, later, passed, .limitPair isLimit spelled isComma spelled'⟩
  | false =>
    obtain rfl : s₁ = s := eaten
    obtain ⟨hasOffset, s₂, eats, last⟩ := Walk.bind_eq_ok_iff.mp ending
    have eaten := poised.eat proper rfl eats
    cases hasOffset with
    | true =>
      obtain ⟨offset, mid, passed, isOffset⟩ := eaten
      obtain ⟨b, s₃, reads, last⟩ := Walk.bind_eq_ok_iff.mp last
      obtain ⟨rfl, rfl⟩ := Walk.pure_eq_ok_iff.mp last
      obtain ⟨y, later, passed, spelled'⟩ := second passed (by simp [isOffset]) reads
      exact ⟨_, later, passed, .limitOffset isLimit spelled isOffset spelled'⟩
    | false =>
      obtain rfl : s₂ = s₁ := eaten
      obtain ⟨rfl, rfl⟩ := Walk.pure_eq_ok_iff.mp last
      exact ⟨[], left, .refl poised, .limit isLimit spelled⟩

theorem limitClause {r : Bool} {v : Unit} (run : Walk.limitClause r s = .ok v u) :
    ∃ taken later rowCount offset, left = taken ++ later ∧ Poised d p (before ++ taken) later u ∧
      PageClause (placeholders before) taken rowCount offset ∧
      u.statement = if r then s.statement.paginate rowCount offset true else s.statement := by
  obtain ⟨_, s₁, expects, run⟩ := Walk.bind_eq_ok_iff.mp run
  obtain ⟨word, later₁, passed₁, isLimit⟩ := poised.expect proper rfl expects
  obtain ⟨first, s₂, reads, run⟩ := Walk.bind_eq_ok_iff.mp run
  obtain ⟨t, later₂, passed₂, spelled⟩ := passed₁.poised.bound (passed₁.proper proper) reads
  have passed := passed₁.trans passed₂
  have counted : placeholders (before ++ [word]) = placeholders before := by
    rw [placeholders_append, placeholders_other (by simp [isLimit]), Nat.add_zero]
  rw [counted] at spelled
  obtain ⟨⟨rowCount, offset⟩, s₃, bounds, run⟩ := Walk.bind_eq_ok_iff.mp run
  obtain ⟨taken, later, passed₃, clause⟩ := passed.poised.limitBounds (passed.proper proper) isLimit spelled
    (by rw [← List.append_assoc, placeholders_append, counted]) bounds
  obtain ⟨split, poised, unchanged⟩ := passed.trans passed₃
  obtain ⟨atCursor, recorded⟩ := Walk.recordIf_run run
  rw [unchanged] at recorded
  exact ⟨_, later, some rowCount, offset, split, atCursor.trans poised, clause, recorded⟩

omit proper in
/-- One of the two bounds has been read, and it is recorded. -/
theorem offsetFetchEnd {r : Bool} {offset rowCount : Option PlacedBound} {v : Unit}
    (run : Walk.offsetFetchEnd r offset rowCount s = .ok v u) :
    (offset.isNone && rowCount.isNone) = false ∧ Poised d p before left u ∧
      u.statement = if r then s.statement.paginate rowCount offset true else s.statement := by
  rw [Walk.offsetFetchEnd] at run
  split at run
  · obtain ⟨_, _, fails, -⟩ := Walk.bind_eq_ok_iff.mp run
    cases fails
  · next isThere =>
    obtain ⟨atCursor, recorded⟩ := Walk.recordIf_run run
    exact ⟨Bool.eq_false_iff.mpr isThere, atCursor.trans poised, recorded⟩

/-- What follows an offset that stands before the clause or is not there. -/
theorem fetchEnd {r : Bool} {offset : Option PlacedBound} {v : Unit} (run : Walk.fetchEnd r offset s = .ok v u) :
    ∃ taken later rowCount, left = taken ++ later ∧ Poised d p (before ++ taken) later u ∧
      rowCount.elim (taken = [] ∧ offset ≠ none) (FetchPart (placeholders before) taken) ∧
      u.statement = if r then s.statement.paginate rowCount offset true else s.statement := by
  obtain ⟨isFetch, s₁, eats, ending⟩ := Walk.bind_eq_ok_iff.mp run
  have eaten := poised.eat proper rfl eats
  cases isFetch with
  | true =>
    obtain ⟨word, later₁, passed₁, isWord⟩ := eaten
    obtain ⟨_, s₂, words, ending⟩ := Walk.bind_eq_ok_iff.mp ending
    obtain ⟨next, later₂, passed₂, isNext⟩ := passed₁.poised.expectAny (passed₁.proper proper) (by decide) words
    have passed := passed₁.trans passed₂
    obtain ⟨b, s₃, reads, ending⟩ := Walk.bind_eq_ok_iff.mp ending
    obtain ⟨t, later₃, passed₃, spelled⟩ := passed.poised.bound (passed.proper proper) reads
    replace passed := passed.trans passed₃
    obtain ⟨_, s₄, words, ending⟩ := Walk.bind_eq_ok_iff.mp ending
    obtain ⟨rows, later₄, passed₄, isRows⟩ := passed.poised.expectAny (passed.proper proper) (by decide) words
    replace passed := passed.trans passed₄
    obtain ⟨_, s₅, words, ending⟩ := Walk.bind_eq_ok_iff.mp ending
    obtain ⟨only, later₅, passed₅, isOnly⟩ := passed.poised.expect (passed.proper proper) rfl words
    replace passed := passed.trans passed₅
    obtain ⟨-, poised', recorded⟩ := passed.poised.offsetFetchEnd ending
    rw [passed.unchanged] at recorded
    have plain : next.kind ≠ .symbol .question := by
      intro same
      rw [same] at isNext
      simp at isNext
    have counted : placeholders (before ++ ([word] ++ [next])) = placeholders before := by
      rw [placeholders_append, placeholders_append, placeholders_other (by simp [isWord]), placeholders_other plain,
        Nat.add_zero]
    rw [counted] at spelled
    exact ⟨_, later₅, some b, passed.split, poised', .mk isWord isNext spelled isRows isOnly, recorded⟩
  | false =>
    obtain rfl : s₁ = s := eaten
    obtain ⟨isThere, poised', recorded⟩ := poised.offsetFetchEnd ending
    refine ⟨[], left, none, rfl, by rwa [List.append_nil], ⟨rfl, ?_⟩, recorded⟩
    rintro rfl
    cases isThere

theorem offsetFetchClause {r : Bool} {v : Unit} (run : Walk.offsetFetchClause r s = .ok v u) :
    ∃ taken later rowCount offset, left = taken ++ later ∧ Poised d p (before ++ taken) later u ∧
      PageClause (placeholders before) taken rowCount offset ∧
      u.statement = if r then s.statement.paginate rowCount offset true else s.statement := by
  obtain ⟨isOffset, s₁, eats, ending⟩ := Walk.bind_eq_ok_iff.mp run
  have eaten := poised.eat proper rfl eats
  cases isOffset with
  | true =>
    obtain ⟨word, later₁, passed₁, isWord⟩ := eaten
    obtain ⟨o, s₂, reads, ending⟩ := Walk.bind_eq_ok_iff.mp ending
    obtain ⟨t, later₂, passed₂, spelled⟩ := passed₁.poised.bound (passed₁.proper proper) reads
    have passed := passed₁.trans passed₂
    rw [placeholders_append, placeholders_other (by simp [isWord]), Nat.add_zero] at spelled
    obtain ⟨_, s₃, words, ending⟩ := Walk.bind_eq_ok_iff.mp ending
    have offsetPart : ∃ taken later, Passed d p before left s taken later s₃ ∧
        OffsetPart (placeholders before) taken o := by
      obtain ⟨found, words, -⟩ := Walk.map_eq_ok_iff.mp words
      have eaten := passed.poised.eatAny (passed.proper proper) (by decide) words
      cases found with
      | true =>
        obtain ⟨rows, later₃, passed₃, isRows⟩ := eaten
        exact ⟨_, later₃, passed.trans passed₃, .rows isWord spelled isRows⟩
      | false =>
        obtain rfl : s₃ = s₂ := eaten
        exact ⟨_, later₂, passed, .bare isWord spelled⟩
    obtain ⟨taken, mid, passed, part⟩ := offsetPart
    have fetches : Walk.fetchEnd r (some o) s₃ = .ok v u := ending
    obtain ⟨taken', later, rowCount, rfl, poised', fetch, recorded⟩ := passed.poised.fetchEnd (passed.proper proper) fetches
    rw [passed.unchanged] at recorded
    refine ⟨taken ++ taken', later, rowCount, some o, by simp [passed.split], by simpa using poised', ?_, recorded⟩
    cases rowCount with
    | none =>
      obtain ⟨rfl, -⟩ := fetch
      rw [List.append_nil]
      exact .offset part
    | some b =>
      rw [placeholders_append] at fetch
      exact .offsetFetch part fetch
  | false =>
    obtain rfl : s₁ = s := eaten
    have fetches : Walk.fetchEnd r none s₁ = .ok v u := ending
    obtain ⟨taken, later, rowCount, split, poised', fetch, recorded⟩ := poised.fetchEnd proper fetches
    refine ⟨taken, later, rowCount, none, split, poised', ?_, recorded⟩
    cases rowCount with
    | none => exact absurd rfl fetch.2
    | some b => exact .fetch fetch

/-- A group after `TOP` gives a bound if the bound is all that it holds, and none otherwise. -/
theorem topGroup {b? : Option PlacedBound} (isGroup : s.cursor.kind = .symbol .leftParen)
    (run : Walk.topGroup s = .ok b? u) :
    ∃ taken later, Passed d p before left s taken later u ∧
      b?.elim (∃ opening rest, left = opening :: rest ∧ opening.kind = .symbol .leftParen ∧ ¬ HoldsBound (placeholders before) rest)
        fun b => ∃ opening t closing, taken = [opening, t, closing] ∧ opening.kind = .symbol .leftParen ∧
          b.Spelled (placeholders before) t ∧ closing.kind = .symbol .rightParen := by
  obtain ⟨next, s₁, peeks, body⟩ := Walk.bind_eq_ok_iff.mp run
  obtain ⟨ahead, rfl⟩ := Walk.peek_eq_ok_iff.mp peeks
  obtain ⟨opening, rest, rfl, atOpening⟩ := poised.head (by simp [isGroup])
  have isOpening : opening.kind = .symbol .leftParen := atOpening ▸ isGroup
  split at body
  · obtain ⟨_, s₂, passes, body⟩ := Walk.bind_eq_ok_iff.mp body
    obtain ⟨_, advances, -⟩ := Walk.map_eq_ok_iff.mp passes
    obtain ⟨later₁, passed₁, rfl⟩ := poised.advance proper (by simp [isGroup]) advances
    obtain ⟨b, s₃, reads, body⟩ := Walk.bind_eq_ok_iff.mp body
    obtain ⟨t, later₂, passed₂, spelled⟩ := passed₁.poised.bound (passed₁.proper proper) reads
    rw [placeholders_append, placeholders_other (by rw [show s₁.cursor.current.kind = _ from isGroup]; simp),
      Nat.add_zero] at spelled
    have passed := passed₁.trans passed₂
    obtain ⟨isClosed, s₄, eats, body⟩ := Walk.bind_eq_ok_iff.mp body
    have eaten := passed.poised.eat (passed.proper proper) rfl eats
    cases isClosed with
    | true =>
      obtain ⟨closing, later₃, passed₃, isClosing⟩ := eaten
      obtain ⟨rfl, rfl⟩ := Walk.pure_eq_ok_iff.mp body
      exact ⟨_, later₃, passed.trans passed₃, _, t, closing, rfl, isGroup, spelled, isClosing⟩
    | false =>
      obtain ⟨_, s₅, closes, body⟩ := Walk.bind_eq_ok_iff.mp body
      obtain ⟨rfl, rfl⟩ := Walk.pure_eq_ok_iff.mp body
      obtain rfl : s₄ = s₃ := eaten
      obtain ⟨taken, later₃, passed₃⟩ := passed.poised.silent (passed.proper proper) closes fun inStep =>
        (inStep.closeParentheses (b := false) (f := pure ()) 1 Walk.failExpected_fails).keeps
      refine ⟨_, later₃, passed.trans passed₃, opening, rest, rfl, isOpening, ?_⟩
      rintro ⟨x, closing, more, rfl, -, isClosing⟩
      obtain rfl : later₂ = closing :: more := by
        have split := passed.split
        simp only [List.cons_append, List.nil_append, List.cons.injEq] at split
        exact split.2.2.symm
      have differs := Walk.check_of_eat_false eats
      rw [Cursor.check, passed.poised, Cursor.along_cons_kind, isClosing] at differs
      cases differs
  · next notBound =>
    obtain ⟨_, s₂, skips, body⟩ := Walk.bind_eq_ok_iff.mp body
    obtain ⟨rfl, rfl⟩ := Walk.pure_eq_ok_iff.mp body
    obtain ⟨taken, later, passed⟩ := poised.silent proper skips fun inStep =>
      (inStep.skipParentheses (b := false)).keeps
    refine ⟨taken, later, passed, opening, rest, rfl, isOpening, ?_⟩
    rintro ⟨x, closing, more, rfl, ⟨b, spelled⟩, -⟩
    rw [poised, Cursor.along_peek proper] at ahead
    cases ahead
    cases spelled with
    | literal isInteger =>
      rw [isInteger] at notBound
      exact notBound rfl
    | placeholder isQuestion => simp [isQuestion] at notBound

/-- A `TOP` clause records its bound, if it has one. -/
theorem topClause {r : Bool} {v : Unit} (run : Walk.topClause r s = .ok v u) :
    ∃ taken later, left = taken ++ later ∧ Poised d p (before ++ taken) later u ∧
      (u.statement = s.statement ∧ (r = true → TopExpression (placeholders before) left) ∨
        r = true ∧ ∃ clause more b rewritable, taken = clause ++ more ∧ PageClause (placeholders before) clause (some b) none ∧
          u.statement = s.statement.paginate (some b) none rewritable) := by
  rw [Walk.topClause_eq] at run
  obtain ⟨_, s₁, expects, run⟩ := Walk.bind_eq_ok_iff.mp run
  obtain ⟨word, later₁, passed₁, isTop⟩ := poised.expect proper rfl expects
  have proper₁ := passed₁.proper proper
  have counted : placeholders (before ++ [word]) = placeholders before := by
    rw [placeholders_append, placeholders_other (by simp [isTop]), Nat.add_zero]
  have ended {taken later : List Token} {s₂ : WalkState} {b? : Option PlacedBound}
      (passed : Passed d p (before ++ [word]) later₁ s₁ taken later s₂)
      (isClause : b?.elim (TopExpression (placeholders before) left)
        fun b => PageClause (placeholders before) (word :: taken) (some b) none)
      (run : Walk.topEnd r b? s₂ = .ok v u) :
      ∃ taken later, left = taken ++ later ∧ Poised d p (before ++ taken) later u ∧
        (u.statement = s.statement ∧ (r = true → TopExpression (placeholders before) left) ∨
          r = true ∧ ∃ clause more b rewritable, taken = clause ++ more ∧ PageClause (placeholders before) clause (some b) none ∧
            u.statement = s.statement.paginate (some b) none rewritable) := by
    obtain ⟨percent, s₃, words, run⟩ := Walk.bind_eq_ok_iff.mp run
    obtain ⟨taken₃, later₃, passed₃⟩ := passed.poised.silent (passed.proper proper₁) words fun inStep =>
      Walk.passWord_keeps inStep.toAbreast _
    obtain ⟨_, s₄, ties, run⟩ := Walk.bind_eq_ok_iff.mp run
    obtain ⟨taken₄, later₄, passed₄⟩ := passed₃.poised.silent (passed₃.proper (passed.proper proper₁)) ties
      fun inStep => Walk.passTies_keeps inStep.toAbreast
    obtain ⟨split, poised, unchanged⟩ := passed₁.trans (passed.trans (passed₃.trans passed₄))
    cases r with
    | false =>
      obtain ⟨-, rfl⟩ := Walk.pure_eq_ok_iff.mp run
      exact ⟨_, later₄, split, poised, .inl ⟨unchanged, by simp⟩⟩
    | true =>
      cases b? with
      | none =>
        obtain ⟨-, rfl⟩ := Walk.pure_eq_ok_iff.mp run
        exact ⟨_, later₄, split, poised, .inl ⟨unchanged, fun _ => isClause⟩⟩
      | some b =>
        cases run
        refine ⟨_, later₄, split, poised, .inr ⟨rfl, word :: taken, _, b, !percent, rfl, isClause, ?_⟩⟩
        rw [← unchanged]
  obtain ⟨isGroup, s₂, ⟨⟩, run⟩ := Walk.bind_eq_ok_iff.mp run
  split at run
  · next isGroup =>
    obtain ⟨b?, s₂, group, run⟩ := Walk.bind_eq_ok_iff.mp run
    obtain ⟨taken, later, passed, isClause⟩ :=
      passed₁.poised.topGroup proper₁ (TokenKind.sameShape_symbol.mp isGroup) group
    refine ended passed ?_ run
    rw [counted] at isClause
    cases b? with
    | none =>
      obtain ⟨opening, rest, rfl, isOpening, noBound⟩ := isClause
      exact ⟨word, opening, rest, passed₁.split, isTop, isOpening, noBound⟩
    | some b =>
      obtain ⟨opening, t, closing, rfl, isOpening, spelled, isClosing⟩ := isClause
      exact .topGroup isTop isOpening spelled isClosing
  · obtain ⟨b?, s₂, reads, run⟩ := Walk.bind_eq_ok_iff.mp run
    obtain ⟨b, readsBound, rfl⟩ := Walk.map_eq_ok_iff.mp reads
    obtain ⟨t, later, passed, spelled⟩ := passed₁.poised.bound proper₁ readsBound
    rw [counted] at spelled
    have isClause : (some b).elim (TopExpression (placeholders before) left)
        (fun b => PageClause (placeholders before) [word, t] (some b) none) := .top isTop spelled
    exact ended passed isClause run

end Poised

end SqlSharding.Sql
