import SqlSharding.Proofs.Placeholders

/-!
# The only pagination of a text

The tokens of a pagination clause that tell its bounds determine them. So when a text has one pagination clause, the bounds
that a statement records are those of that clause, each of them in its own place.
-/

namespace SqlSharding.Sql

variable {n m : Nat} {t : Token} {ts us before clause after inner : List Token} {b c o : PlacedBound}
  {rowCount offset rowCount' offset' : Option PlacedBound}

/-! ## Telling tokens -/

/-- Whether a token tells the bounds of a pagination clause: the bounds do, and the words and the comma before them. -/
def Token.tellsBounds (t : Token) : Bool :=
  match t.kind with
  | .integer _ => true
  | .symbol s => s ∈ [.question, .comma]
  | .keyword k => k ∈ [.limit, .offset, .fetch, .top]
  | _ => false

theorem Token.tellsBounds_keyword {k : Keyword} (isKeyword : t.kind = .keyword k) :
    t.tellsBounds = decide (k ∈ [.limit, .offset, .fetch, .top]) := by
  rw [tellsBounds, isKeyword]

theorem Token.tellsBounds_symbol {s : Symbol} (isSymbol : t.kind = .symbol s) :
    t.tellsBounds = decide (s ∈ [.question, .comma]) := by
  rw [tellsBounds, isSymbol]

theorem Token.tellsBounds_rows (isRows : t.kind ∈ [.keyword .row, .keyword .rows]) : t.tellsBounds = false := by
  rcases List.mem_pair.mp isRows with same | same <;> rw [tellsBounds_keyword same] <;> rfl

theorem Token.tellsBounds_next (isNext : t.kind ∈ [.keyword .first, .keyword .next]) : t.tellsBounds = false := by
  rcases List.mem_pair.mp isNext with same | same <;> rw [tellsBounds_keyword same] <;> rfl

theorem PlacedBound.Spelled.tellsBounds (spelled : b.Spelled n t) : t.tellsBounds = true := by
  cases spelled with
  | literal kind => rw [Token.tellsBounds, kind]
  | placeholder kind => rw [Token.tellsBounds_symbol kind]; rfl

/-- A token spells one bound. -/
theorem PlacedBound.Spelled.unique (first : b.Spelled n t) (second : c.Spelled n t) : b = c := by
  cases first with
  | literal kind nonneg =>
    cases second with
    | literal kind' nonneg' =>
      rw [kind] at kind'
      cases kind'
      rfl
    | placeholder kind' =>
      rw [kind] at kind'
      cases kind'
  | placeholder kind =>
    cases second with
    | literal kind' nonneg' =>
      rw [kind] at kind'
      cases kind'
    | placeholder kind' => rfl

theorem placeholders_filter_tellsBounds (ts : List Token) : placeholders (ts.filter Token.tellsBounds) = placeholders ts := by
  rw [placeholders, placeholders, List.countP_filter]
  refine List.countP_congr fun t _ => ?_
  simp only [Bool.and_eq_true, decide_eq_true_eq, and_iff_left_iff_imp]
  intro isQuestion
  rw [Token.tellsBounds_symbol isQuestion]
  rfl

/-! ## What is left of a clause -/

/-- The telling tokens of a pagination clause after the given number of placeholders. -/
inductive PageCore (n : Nat) : List Token → Option PlacedBound → Option PlacedBound → Prop
  | rowCount {word t : Token} {b : PlacedBound} : word.kind ∈ [.keyword .limit, .keyword .fetch, .keyword .top] →
      b.Spelled n t → PageCore n [word, t] (some b) none
  | offset {word t : Token} {o : PlacedBound} : word.kind = .keyword .offset → o.Spelled n t →
      PageCore n [word, t] none (some o)
  | offsetFirst {word t between u : Token} {o b : PlacedBound} : word.kind ∈ [.keyword .limit, .keyword .offset] →
      o.Spelled n t → between.kind ∈ [.symbol .comma, .keyword .fetch] → b.Spelled (n + placeholders [t]) u →
      PageCore n [word, t, between, u] (some b) (some o)
  | rowCountFirst {word t between u : Token} {b o : PlacedBound} : word.kind = .keyword .limit → b.Spelled n t →
      between.kind = .keyword .offset → o.Spelled (n + placeholders [t]) u →
      PageCore n [word, t, between, u] (some b) (some o)

theorem OffsetPart.exists_core (part : OffsetPart n ts o) : ∃ word t, ts.filter Token.tellsBounds = [word, t] ∧
    word.kind = .keyword .offset ∧ o.Spelled n t := by
  cases part with
  | bare isWord spelled =>
    refine ⟨_, _, ?_, isWord, spelled⟩
    simp [Token.tellsBounds_keyword isWord, spelled.tellsBounds]
  | rows isWord spelled isRows =>
    refine ⟨_, _, ?_, isWord, spelled⟩
    simp [Token.tellsBounds_keyword isWord, spelled.tellsBounds, Token.tellsBounds_rows isRows]

theorem FetchPart.exists_core (part : FetchPart n ts b) : ∃ word t, ts.filter Token.tellsBounds = [word, t] ∧
    word.kind = .keyword .fetch ∧ b.Spelled n t := by
  obtain ⟨isWord, isNext, spelled, isRows, isOnly⟩ := part
  refine ⟨_, _, ?_, isWord, spelled⟩
  simp [Token.tellsBounds_keyword isWord, Token.tellsBounds_keyword isOnly, spelled.tellsBounds,
    Token.tellsBounds_rows isRows, Token.tellsBounds_next isNext]

theorem PageClause.core (clause : PageClause n ts rowCount offset) : PageCore n (ts.filter Token.tellsBounds) rowCount offset := by
  cases clause with
  | limit isWord spelled | top isWord spelled =>
    have core := PageCore.rowCount (by rw [isWord]; simp) spelled
    simpa [Token.tellsBounds_keyword isWord, spelled.tellsBounds] using core
  | topGroup isWord isOpening spelled isClosing =>
    have core := PageCore.rowCount (by rw [isWord]; simp) spelled
    simpa [Token.tellsBounds_keyword isWord, spelled.tellsBounds, Token.tellsBounds_symbol isOpening,
      Token.tellsBounds_symbol isClosing] using core
  | limitPair isWord first isComma second =>
    have core := PageCore.offsetFirst (by rw [isWord]; simp) first (by rw [isComma]; simp) second
    simpa [Token.tellsBounds_keyword isWord, first.tellsBounds, second.tellsBounds, Token.tellsBounds_symbol isComma] using core
  | limitOffset isWord first isOffset second =>
    have core := PageCore.rowCountFirst isWord first isOffset second
    simpa [Token.tellsBounds_keyword isWord, first.tellsBounds, second.tellsBounds, Token.tellsBounds_keyword isOffset] using core
  | offset part =>
    obtain ⟨word, t, same, isWord, spelled⟩ := part.exists_core
    rw [same]
    exact .offset isWord spelled
  | fetch part =>
    obtain ⟨word, t, same, isWord, spelled⟩ := part.exists_core
    rw [same]
    exact .rowCount (by simp [isWord]) spelled
  | @offsetFetch ts us _ _ first second =>
    obtain ⟨word, t, same, isWord, spelled⟩ := first.exists_core
    obtain ⟨word', u, same', isWord', spelled'⟩ := second.exists_core
    have counted : placeholders ts = placeholders [t] := by
      rw [← placeholders_filter_tellsBounds, same, placeholders_cons_other (by simp [isWord])]
    rw [List.filter_append, same, same']
    exact .offsetFirst (by simp [isWord]) spelled (by simp [isWord']) (counted ▸ spelled')

namespace PageCore

theorem length_eq (core : PageCore n ts rowCount offset) :
    ts.length = 2 * (rowCount.toList.length + offset.toList.length) := by
  cases core <;> rfl

/-- The telling tokens determine the bounds. -/
theorem unique (first : PageCore n ts rowCount offset) (second : PageCore n ts rowCount' offset') :
    rowCount = rowCount' ∧ offset = offset' := by
  cases first with
  | rowCount isWord spelled =>
    cases second with
    | rowCount _ spelled' => exact ⟨congrArg some (spelled.unique spelled'), rfl⟩
    | offset isOffset => simp [isOffset] at isWord
  | offset isOffset spelled =>
    cases second with
    | rowCount isWord => simp [isOffset] at isWord
    | offset _ spelled' => exact ⟨rfl, congrArg some (spelled.unique spelled')⟩
  | offsetFirst _ spelled between more =>
    cases second with
    | offsetFirst _ spelled' _ more' => exact ⟨congrArg some (more.unique more'), congrArg some (spelled.unique spelled')⟩
    | rowCountFirst _ _ isOffset => simp [isOffset] at between
  | rowCountFirst _ spelled isOffset more =>
    cases second with
    | offsetFirst _ _ between => simp [isOffset] at between
    | rowCountFirst _ spelled' _ more' => exact ⟨congrArg some (spelled.unique spelled'), congrArg some (more.unique more')⟩

/-- The numbers among the telling tokens are literal bounds. -/
theorem eq_of_integer {i : Int64} (core : PageCore n ts rowCount offset) (member : t ∈ ts) (isInteger : t.kind = .integer i) :
    rowCount = some ⟨.literal i, t.span⟩ ∨ offset = some ⟨.literal i, t.span⟩ := by
  have isBound {n : Nat} {b : PlacedBound} (spelled : b.Spelled n t) : some b = some ⟨.literal i, t.span⟩ := by
    cases spelled with
    | literal kind =>
      rw [isInteger] at kind
      cases kind
      rfl
    | placeholder kind =>
      rw [isInteger] at kind
      cases kind
  cases core with
  | rowCount isWord spelled =>
    rcases List.mem_pair.mp member with rfl | rfl
    · simp [isInteger] at isWord
    · exact .inl (isBound spelled)
  | offset isWord spelled =>
    rcases List.mem_pair.mp member with rfl | rfl
    · simp [isInteger] at isWord
    · exact .inr (isBound spelled)
  | offsetFirst isWord spelled between more =>
    simp only [List.mem_cons, List.not_mem_nil, or_false] at member
    rcases member with rfl | rfl | rfl | rfl
    · simp [isInteger] at isWord
    · exact .inr (isBound spelled)
    · simp [isInteger] at between
    · exact .inl (isBound more)
  | rowCountFirst isWord spelled between more =>
    simp only [List.mem_cons, List.not_mem_nil, or_false] at member
    rcases member with rfl | rfl | rfl | rfl
    · simp [isInteger] at isWord
    · exact .inl (isBound spelled)
    · simp [isInteger] at between
    · exact .inr (isBound more)

/-- Every bound is spelled by one of the telling tokens. -/
theorem exists_spelled (core : PageCore n ts rowCount offset) (isBound : rowCount = some b ∨ offset = some b) :
    ∃ t ∈ ts, ∃ m, b.Spelled m t := by
  cases core with
  | rowCount _ spelled | offset _ spelled =>
    rcases isBound with same | same <;> cases same
    exact ⟨_, by simp, _, spelled⟩
  | offsetFirst _ spelled _ more =>
    rcases isBound with same | same <;> cases same
    · exact ⟨_, by simp, _, more⟩
    · exact ⟨_, by simp, _, spelled⟩
  | rowCountFirst _ spelled _ more =>
    rcases isBound with same | same <;> cases same
    · exact ⟨_, by simp, _, spelled⟩
    · exact ⟨_, by simp, _, more⟩

end PageCore

namespace PageClause

/-- A clause that is part of a clause with the same bounds present has the same bounds. -/
theorem eq_of_part (whole : PageClause n (before ++ inner ++ after) rowCount offset)
    (part : PageClause (n + placeholders before) inner rowCount' offset') (rowCounts : rowCount'.isSome = rowCount.isSome)
    (offsets : offset'.isSome = offset.isSome) : rowCount' = rowCount ∧ offset' = offset := by
  have core := whole.core
  have length := core.length_eq
  have length' := part.core.length_eq
  rw [List.filter_append, List.filter_append] at core length
  have bounds {x y : Option PlacedBound} (same : x.isSome = y.isSome) : x.toList.length = y.toList.length := by
    cases x <;> cases y <;> simp_all
  rw [List.length_append, List.length_append, ← bounds rowCounts, ← bounds offsets] at length
  have noneBefore : before.filter Token.tellsBounds = [] := List.eq_nil_of_length_eq_zero (by omega)
  have noneAfter : after.filter Token.tellsBounds = [] := List.eq_nil_of_length_eq_zero (by omega)
  have counted : placeholders before = 0 := by
    rw [← placeholders_filter_tellsBounds, noneBefore]
    rfl
  rw [noneBefore, noneAfter, List.nil_append, List.append_nil] at core
  have partCore := part.core
  rw [counted, Nat.add_zero] at partCore
  exact partCore.unique core

theorem eq_of_integer {i : Int64} (clause : PageClause n ts rowCount offset) (member : t ∈ ts) (isInteger : t.kind = .integer i) :
    rowCount = some ⟨.literal i, t.span⟩ ∨ offset = some ⟨.literal i, t.span⟩ :=
  clause.core.eq_of_integer (List.mem_filter.mpr ⟨member, by rw [Token.tellsBounds, isInteger]⟩) isInteger

/-- A literal bound is a number of the clause. -/
theorem exists_integer {i : Int64} {span : Span} (clause : PageClause n ts rowCount offset)
    (isBound : rowCount = some ⟨.literal i, span⟩ ∨ offset = some ⟨.literal i, span⟩) :
    ∃ t ∈ ts, t.kind = .integer i ∧ t.span = span := by
  obtain ⟨t, member, m, spelled⟩ := clause.core.exists_spelled isBound
  cases spelled with
  | literal kind => exact ⟨t, (List.mem_filter.mp member).1, kind, rfl⟩

end PageClause

/-! ## The only clause of a text -/

/-- Some tokens of a text are a pagination clause, and all others of its tokens that are one lie among them. -/
structure SoleClause (ts before clause after : List Token) (rowCount offset : Option PlacedBound) : Prop where
  split : ts = before ++ clause ++ after
  clause : PageClause (placeholders before) clause rowCount offset
  only : ∀ first part rest b o, ts = first ++ part ++ rest → PageClause (placeholders first) part b o →
    ∃ x y, first = before ++ x ∧ rest = y ++ after

namespace SoleClause

variable (sole : SoleClause ts before clause after rowCount offset)

include sole

/-- A pagination clause is part of the only one. -/
theorem part {first part rest : List Token} (whole : ts = first ++ part ++ rest)
    (isClause : PageClause (placeholders first) part rowCount' offset') :
    ∃ x y, clause = x ++ part ++ y ∧ PageClause (placeholders before + placeholders x) part rowCount' offset' := by
  obtain ⟨x, y, rfl, rfl⟩ := sole.only _ _ _ _ _ whole isClause
  rw [sole.split] at whole
  refine ⟨x, y, ?_, placeholders_append .. ▸ isClause⟩
  have cut : before ++ (clause ++ after) = before ++ ((x ++ part ++ y) ++ after) := by simpa using whole
  exact List.append_cancel_right (List.append_cancel_left cut)

end SoleClause

/-- A pagination clause begins with one of four words. -/
theorem PageClause.exists_word (clause : PageClause n ts rowCount offset) : ∃ word rest, ts = word :: rest ∧
    word.kind ∈ [.keyword .limit, .keyword .offset, .keyword .fetch, .keyword .top] := by
  cases clause with
  | limit isWord | limitPair isWord | limitOffset isWord | top isWord | topGroup isWord =>
    exact ⟨_, _, rfl, by simp [isWord]⟩
  | offset part =>
    cases part with
    | bare isWord | rows isWord => exact ⟨_, _, rfl, by simp [isWord]⟩
  | offsetFetch part =>
    cases part with
    | bare isWord | rows isWord => exact ⟨_, _, rfl, by simp [isWord]⟩
  | fetch part =>
    obtain ⟨isWord⟩ := part
    exact ⟨_, _, rfl, by simp [isWord]⟩

variable {d : Dialect} {sql : String} {stmt : Statement} {e : Place} {rewritable : Bool}

/-- The places of bounds of a statement with one pagination clause are those of the literal bounds of that clause. -/
theorem SoleClause.mem_points_iff (sole : SoleClause ts before clause after rowCount offset) (parsed : parse d sql = .ok stmt)
    (tokens : tokenize d sql = .ok (ts ++ [Token.endAt e]))
    (recorded : stmt.limit = some ⟨rowCount.map (·.bound), offset.map (·.bound), rewritable⟩) (span : Span) (i : Int64) :
    (.offset span i ∈ stmt.points ↔ offset = some ⟨.literal i, span⟩) ∧
      (.rowCount span i ∈ stmt.points ↔ rowCount = some ⟨.literal i, span⟩) := by
  obtain ⟨_, us, reads', sited⟩ := sited_of_parse parsed
  obtain rfl : ts = us := (reads'.eq_of_tokenize tokens).symm
  obtain ⟨kind, _, us, s, reads, gathered, rfl⟩ := gathered_of_parse parsed
  obtain rfl : ts = us := (reads.eq_of_tokenize tokens).symm
  have isLimit : s.limit = some ⟨rowCount.map (·.bound), offset.map (·.bound), rewritable⟩ := recorded
  -- the bounds that were recorded are those of the clause
  have inPoints : boundPoints .offset offset ++ boundPoints .rowCount rowCount ⊆ s.points := by
    rcases gathered.limit with none | ⟨-, first, part, rest, rowCount', offset', _, whole, isClause, isLimit', places⟩
    · rw [isLimit] at none
      cases none
    · obtain ⟨x, y, rfl, isPart⟩ := sole.part whole isClause
      have same := Option.some.inj (isLimit'.symm.trans isLimit)
      have rowCounts := congrArg (fun l => l.rowCount.isSome) same
      have offsets := congrArg (fun l => l.offset.isSome) same
      simp only [Option.isSome_map] at rowCounts offsets
      obtain ⟨rfl, rfl⟩ := sole.clause.eq_of_part isPart rowCounts offsets
      exact places
  have kept {q : RewritePoint} (member : q ∈ boundPoints .offset offset ++ boundPoints .rowCount rowCount) :
      q ∈ (s.finish (placeholders ts)).points :=
    Statement.mem_sortPoints.mpr (List.mem_append_left _ (inPoints member))
  have offsetKept (isOffset : offset = some ⟨.literal i, span⟩) : .offset span i ∈ (s.finish (placeholders ts)).points :=
    kept (by simp [isOffset, boundPoints])
  have rowCountKept (isRowCount : rowCount = some ⟨.literal i, span⟩) :
      .rowCount span i ∈ (s.finish (placeholders ts)).points :=
    kept (by simp [isRowCount, boundPoints])
  have isBound {first part rest : List Token} {b o : Option PlacedBound} (whole : ts = first ++ part ++ rest)
      (isClause : PageClause (placeholders first) part b o) (literal : b = some ⟨.literal i, span⟩ ∨ o = some ⟨.literal i, span⟩) :
      rowCount = some ⟨.literal i, span⟩ ∨ offset = some ⟨.literal i, span⟩ := by
    obtain ⟨t, member, isInteger, rfl⟩ := isClause.exists_integer literal
    obtain ⟨x, y, rfl, -⟩ := sole.part whole isClause
    exact sole.clause.eq_of_integer (by simp [member]) isInteger
  constructor
  · refine ⟨fun member => ?_, offsetKept⟩
    rcases gathered.points _ (Statement.mem_finish member fun _ => RewritePoint.noConfusion) with old | spelled
    · cases old
    · obtain ⟨first, part, rest, b, whole, isClause⟩ := spelled
      refine (isBound whole isClause (.inr rfl)).resolve_left fun isRowCount => ?_
      cases sited.eq_of_position member (rowCountKept isRowCount) rfl
  · refine ⟨fun member => ?_, rowCountKept⟩
    rcases gathered.points _ (Statement.mem_finish member fun _ => RewritePoint.noConfusion) with old | spelled
    · cases old
    · obtain ⟨first, part, rest, o, whole, isClause⟩ := spelled
      refine (isBound whole isClause (.inl rfl)).resolve_right fun isOffset => ?_
      cases sited.eq_of_position member (offsetKept isOffset) rfl

end SqlSharding.Sql
