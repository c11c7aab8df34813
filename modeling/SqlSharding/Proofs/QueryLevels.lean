import SqlSharding.Proofs.Pages

/-!
# Levels of a query

A query begins with a select, perhaps in parentheses. Behind the select, and behind each parenthesis that is closed after
it, stands one of two things: the rest of a set operation, or an ordering, a pagination clause and a locking clause, each
of which may be missing. The pagination of a statement is that of the outermost level that has one, and the `TOP` of the
select if no level has. A level that goes on with a set operation has none: what stands behind the operator does not
count, and what stands in front of it, in the first branch, does.
-/

namespace SqlSharding.Sql

variable {d : Dialect} {p : Place} {ts before left taken later : List Token} {n : Nat} {s t u : WalkState}

/-! ## Pages -/

/-- The bounds that a pagination clause spells. -/
structure Page where
  rowCount : Option PlacedBound
  offset : Option PlacedBound

/-- The places of the bounds of a page that are literals. -/
def Page.points (g : Page) : List RewritePoint := boundPoints .offset g.offset ++ boundPoints .rowCount g.rowCount

theorem Page.isBound_of_mem_points {g : Page} {q : RewritePoint} (member : q ∈ g.points) : q.isBound = true := by
  rcases List.mem_append.mp member with inOffset | inRowCount
  · obtain ⟨span, i, -, rfl⟩ := Gathered.mem_boundPoints inOffset
    rfl
  · obtain ⟨span, i, -, rfl⟩ := Gathered.mem_boundPoints inRowCount
    rfl

/-- Whether a statement gets its pagination from a page, and keeps the one that it has if there is no page. -/
def Statement.PagedBy (page : Option Page) (s u : Statement) : Prop :=
  page.elim (u.limit = s.limit) fun g => ∃ rewritable, u.limit = some ⟨g.rowCount.map (·.bound), g.offset.map (·.bound), rewritable⟩

theorem Statement.PagedBy.of_paginate {rowCount offset : Option PlacedBound} {rewritable : Bool} {s u : Statement}
    (recorded : u = s.paginate rowCount offset rewritable) : PagedBy (some ⟨rowCount, offset⟩) s u := by
  refine ⟨rewritable && s.kind = .select, ?_⟩
  rw [recorded, paginate_eq]

theorem Statement.PagedBy.trans {page page' : Option Page} {s t u : Statement} (first : PagedBy page s t)
    (second : PagedBy page' t u) : PagedBy (page'.or page) s u := by
  cases page' with
  | some g => exact second
  | none =>
    cases page with
    | none => exact Eq.trans second first
    | some g =>
      obtain ⟨rewritable, same⟩ := first
      exact ⟨rewritable, Eq.trans second same⟩

/-- A statement has recorded some pages, one after the other. All of them leave their literal bounds, and the last one is
the pagination. -/
structure Statement.Records (pages : List Page) (s u : Statement) : Prop where
  limit : PagedBy pages.getLast? s u
  bounds : u.bounds = s.bounds ++ pages.flatMap Page.points

namespace Statement.Records

variable {pages pages' : List Page} {s t u : Statement}

/-- Nothing is recorded of the pagination. -/
theorem none (limit : u.limit = s.limit) (bounds : u.bounds = s.bounds) : Records [] s u :=
  ⟨limit, by rw [bounds, List.flatMap_nil, List.append_nil]⟩

theorem of_paginate {rowCount offset : Option PlacedBound} {rewritable : Bool}
    (recorded : u = s.paginate rowCount offset rewritable) : Records [⟨rowCount, offset⟩] s u := by
  refine ⟨.of_paginate recorded, ?_⟩
  have areBounds : (Page.points ⟨rowCount, offset⟩).filter RewritePoint.isBound = Page.points ⟨rowCount, offset⟩ :=
    List.filter_eq_self.mpr fun q member => Page.isBound_of_mem_points member
  rw [recorded, paginate_eq, List.flatMap_singleton, ← areBounds]
  exact List.filter_append ..

theorem trans (first : Records pages s t) (second : Records pages' t u) : Records (pages ++ pages') s u where
  limit := by
    rw [List.getLast?_append]
    exact first.limit.trans second.limit
  bounds := by rw [second.bounds, first.bounds, List.flatMap_append, List.append_assoc]

theorem kept (first : Records pages s t) (second : Records [] t u) : Records pages s u := by
  have all := first.trans second
  rwa [List.append_nil] at all

end Statement.Records

/-- What stands behind the head of a query: the rest of a set operation, or a page or none. -/
inductive Level where
  | joined
  | single (page : Option Page)

def Level.page? : Level → Option Page
  | joined => none
  | single page => page

/-- The page of the first of some levels that has one, or of the select inside all of them. -/
def Page.outermost (levels : List Level) (top : Option Page) : Option Page := (levels.findSome? Level.page?).or top

/-- The pages of some levels and of the select inside all of them, from the innermost to the outermost. -/
def Page.recorded (levels : List Level) (top : Option Page) : List Page :=
  top.toList ++ (levels.filterMap Level.page?).reverse

theorem Page.recorded_nil (top : Option Page) : recorded [] top = top.toList := List.append_nil _

theorem Page.recorded_cons (level : Level) (levels : List Level) (top : Option Page) :
    recorded (level :: levels) top = recorded levels top ++ level.page?.toList := by
  rw [recorded, recorded, List.filterMap_cons, List.append_assoc]
  cases level.page? with
  | none => rw [Option.toList_none, List.append_nil]
  | some g => rw [Option.toList_some, List.reverse_cons]

theorem Page.getLast?_recorded (levels : List Level) (top : Option Page) :
    (recorded levels top).getLast? = outermost levels top := by
  rw [recorded, outermost, List.getLast?_append, List.getLast?_reverse, List.head?_filterMap]
  cases top <;> rfl

/-! ## Queries in the text -/

/-- The tokens between two places that a walk passes from the first of them to the second. -/
def Walk.Covers (d : Dialect) (p : Place) (m : Walk Unit) (before taken later : List Token) : Prop :=
  ∃ s u, Poised d p before (taken ++ later) s ∧ m s = .ok () u ∧ Poised d p (before ++ taken) later u

def setOperators : List TokenKind := [.keyword .union, .keyword .except, .keyword .intersect]

/-- What follows the modifiers of a select: a `TOP` clause with a bound, one without, or none. -/
inductive TopText (n : Nat) : List Token → Option Page → Prop
  | absent {left : List Token} : ¬ BeginsWith [.keyword .top] left → TopText n left none
  | bound {clause rest : List Token} {b : PlacedBound} : BeginsWith [.keyword .top] clause →
      PageClause n clause (some b) none → TopText n (clause ++ rest) (some ⟨some b, none⟩)
  | expression {left : List Token} : TopExpression n left → TopText n left none

/-- The tokens of a select up to its ordering. -/
structure SelectText (d : Dialect) (p : Place) (before core later : List Token) (top : Option Page) : Prop where
  covers : ∃ depth, Walk.Covers d p (Walk.selectWithin depth true) before core later
  top : ∃ word modifiers rest, core ++ later = word :: (modifiers ++ rest) ∧ word.kind = .keyword .select ∧
    (∀ t ∈ modifiers, t.kind ∈ selectModifiers) ∧ ¬ BeginsWith selectModifiers rest ∧
    TopText (placeholders (before ++ word :: modifiers)) rest top

/-- The tokens of an ordering, if there is one. -/
inductive OrderText (d : Dialect) (p : Place) (before : List Token) : List Token → List Token → Prop
  | absent {later : List Token} : ¬ BeginsWith [.keyword .order] later → OrderText d p before [] later
  | keys {word byWord : Token} {keys later : List Token} {depth : Nat} : word.kind = .keyword .order → byWord.kind = .keyword .by →
      Walk.Covers d p (Walk.expressionWithin depth TokenKind.endsClause) (before ++ [word, byWord]) keys later →
      OrderText d p before (word :: byWord :: keys) later

/-- Whether some tokens begin with a pagination clause. MySQL has only one of them. -/
def BeginsPage (d : Dialect) (left : List Token) : Prop :=
  BeginsWith [.keyword .limit] left ∨ d ≠ .mysql ∧ BeginsWith [.keyword .offset, .keyword .fetch] left

/-- The tokens of a level, behind the head of the query. -/
inductive LevelText (d : Dialect) (p : Place) (before : List Token) : List Token → List Token → Level → Prop
  | joined {op : Token} {rest later : List Token} {depth : Nat} : op.kind ∈ setOperators →
      Walk.Covers d p (do discard (Walk.eatAny [.keyword .all, .keyword .distinct]); Walk.queryWithin depth false)
        (before ++ [op]) rest later → LevelText d p before (op :: rest) later .joined
  | paged {order clause locking later : List Token} {rowCount offset : Option PlacedBound} :
      ¬ BeginsWith setOperators (order ++ (clause ++ (locking ++ later))) →
      OrderText d p before order (clause ++ (locking ++ later)) →
      PageClause (placeholders (before ++ order)) clause rowCount offset →
      Walk.Covers d p Walk.lockingClause (before ++ order ++ clause) locking later →
      LevelText d p before (order ++ (clause ++ locking)) later (.single (some ⟨rowCount, offset⟩))
  | bare {order locking later : List Token} :
      ¬ BeginsWith setOperators (order ++ (locking ++ later)) → OrderText d p before order (locking ++ later) →
      ¬ BeginsPage d (locking ++ later) → Walk.Covers d p Walk.lockingClause (before ++ order) locking later →
      LevelText d p before (order ++ locking) later (.single none)

/-- The tokens of a query, with its levels from the outermost to the innermost and the `TOP` of the select that it begins
with. -/
inductive QueryText (d : Dialect) (p : Place) :
    List Token → List Token → List Token → List Level → Option Page → Prop
  | select {before core tail later : List Token} {level : Level} {top : Option Page} :
      SelectText d p before core (tail ++ later) top → LevelText d p (before ++ core) tail later level →
      QueryText d p before (core ++ tail) later [level] top
  | group {before inner tail later : List Token} {opening closing : Token} {levels : List Level} {level : Level}
      {top : Option Page} : opening.kind = .symbol .leftParen → closing.kind = .symbol .rightParen →
      QueryText d p (before ++ [opening]) inner (closing :: (tail ++ later)) levels top →
      LevelText d p (before ++ opening :: (inner ++ [closing])) tail later level →
      QueryText d p before (opening :: (inner ++ closing :: tail)) later (level :: levels) top

/-! ## Steps of a query -/

/-- A run of tokens of the given kinds is passed to its end. -/
theorem Poised.skipAll {ks : List TokenKind} (fixed : ∀ k ∈ ks, k.isFixed = true) (proper : Proper left)
    (poised : Poised d p before left s) {v : Unit} (run : Walk.skipAll ks s = .ok v u) :
    ∃ taken later, Passed d p before left s taken later u ∧ (∀ t ∈ taken, t.kind ∈ ks) ∧ ¬ BeginsWith ks later := by
  obtain ⟨taken, later, passed, inKinds, ended⟩ :=
    poised.passWhile proper (fun proper poised run => poised.eatAny proper fixed run) run
  exact ⟨taken, later, passed, inKinds, passed.poised.not_beginsWith fixed (Walk.checkAny_of_eatAny_false ended)⟩

theorem Gathered.records_none {start count : Nat} {held : List Nat} {s u : Statement}
    (gathered : Gathered ts false start count held s u) : Statement.Records [] s u := by
  rcases gathered.limit with same | new
  · exact .none same (gathered.bounds rfl)
  · cases new.1

/-- A walk that records no pagination passes some tokens and leaves the pagination as it is. -/
theorem Walk.Gathering.unpaged {α : Type} {m : Walk α} {a : α} (gathering : Walk.Gathering d p ts false m)
    (whole : ts = before ++ left) (poised : Poised d p before left s) (run : m s = .ok a u) :
    ∃ taken later, left = taken ++ later ∧ Poised d p (before ++ taken) later u ∧
      Statement.Records [] s.statement u.statement := by
  obtain ⟨taken, later, split, poised', gathered⟩ := gathering before left s a u whole poised run
  exact ⟨taken, later, split, poised', gathered.records_none⟩

section

variable (proper : Proper ts) (whole : ts = before ++ left) (poised : Poised d p before left s)

include proper whole poised

/-- A select records its `TOP`. -/
theorem select_paged {depth : Nat} (run : Walk.selectWithin depth true s = .ok () u) :
    ∃ core later top, left = core ++ later ∧ Poised d p (before ++ core) later u ∧ SelectText d p before core later top ∧
      Statement.Records top.toList s.statement u.statement := by
  have properLeft : Proper left := proper.rest whole
  cases depth with
  | zero => cases run
  | succ depth =>
  have covered := run
  rw [Walk.selectWithin_succ] at run
  obtain ⟨_, s₁, expects, run⟩ := Walk.bind_eq_ok_iff.mp run
  obtain ⟨word, left₁, passed₁, isSelect⟩ := poised.expect properLeft rfl expects
  obtain ⟨_, s₂, skips, run⟩ := Walk.bind_eq_ok_iff.mp run
  obtain ⟨modifiers, left₂, passed₂, areModifiers, noModifier⟩ :=
    passed₁.poised.skipAll (by decide) (passed₁.proper properLeft) skips
  obtain ⟨isTop, _, ⟨⟩, run⟩ := Walk.bind_eq_ok_iff.mp run
  have passed := passed₁.trans passed₂
  have ending : Walk.Gathering d p ts false (Walk.selectEnd depth) := (NestedGathering.all proper depth).selectEnd proper
  have nothing (s : Statement) : Statement.Records [] s s := .none rfl rfl
  -- whatever `TOP` records, the rest of the select leaves it as it is
  have ended (top : Option Page) (taken : List Token) {mid : List Token} {t : WalkState} (split : left₂ = taken ++ mid)
      (poised' : Poised d p (before ++ ([word] ++ modifiers) ++ taken) mid t)
      (isTop : TopText (placeholders (before ++ ([word] ++ modifiers))) left₂ top)
      (paged : Statement.Records top.toList s₂.statement t.statement) (run : Walk.selectEnd depth t = .ok () u) :
      ∃ core later top, left = core ++ later ∧ Poised d p (before ++ core) later u ∧ SelectText d p before core later top ∧
        Statement.Records top.toList s.statement u.statement := by
    obtain ⟨more, later, rfl, poised'', same⟩ := ending.unpaged (by simp [whole, passed.split, split]) poised' run
    have split' : left = (word :: (modifiers ++ taken ++ more)) ++ later := by simp [passed.split, split]
    have poised₃ : Poised d p (before ++ word :: (modifiers ++ taken ++ more)) later u := by
      simpa using poised''
    refine ⟨_, later, top, split', poised₃, ⟨⟨_, s, u, split' ▸ poised, covered, poised₃⟩,
      word, modifiers, left₂, by simp [split], isSelect, areModifiers, noModifier, isTop⟩, ?_⟩
    rw [passed.unchanged] at paged
    exact paged.kept same
  split at run
  · next check =>
    obtain ⟨_, s₃, tops, run⟩ := Walk.bind_eq_ok_iff.mp run
    have properLater := passed.proper properLeft
    obtain ⟨taken, mid, rfl, poised', recorded⟩ := passed.poised.topClause properLater tops
    rcases recorded with ⟨same, isExpression⟩ | ⟨-, clause, more, b, rewritable, rfl, isClause, recorded⟩
    · exact ended none taken rfl poised' (.expression (isExpression rfl)) (same ▸ nothing _) run
    · have isTop : s₂.cursor.kind = .keyword .top := TokenKind.sameShape_keyword.mp check
      obtain ⟨t, rest, rfl, -⟩ := isClause.exists_word
      have begins : BeginsWith [.keyword .top] (t :: rest) := by
        rw [passed.poised] at isTop
        exact ⟨t, rest, rfl, List.mem_singleton.mpr isTop⟩
      refine ended (some ⟨some b, none⟩) _ rfl poised' ?_ (.of_paginate recorded) run
      rw [List.append_assoc]
      exact .bound begins isClause
  · next check =>
    refine ended none [] rfl (by simpa using passed.poised) (.absent ?_) (nothing _) run
    refine passed.poised.not_beginsWith (by decide) ?_
    rw [Cursor.checkAny, List.any_cons, List.any_nil, Bool.or_false]
    exact Bool.eq_false_iff.mpr check

/-- A pagination clause is recorded if there is one. -/
theorem pagination_paged (run : Walk.pagination true s = .ok () u) :
    (∃ clause later rowCount offset, left = clause ++ later ∧ Poised d p (before ++ clause) later u ∧
      PageClause (placeholders before) clause rowCount offset ∧
      Statement.Records [⟨rowCount, offset⟩] s.statement u.statement) ∨ u = s ∧ ¬ BeginsPage d left := by
  have properLeft : Proper left := proper.rest whole
  obtain ⟨_, _, ⟨⟩, run⟩ := Walk.bind_eq_ok_iff.mp run
  split at run
  · obtain ⟨clause, later, rowCount, offset, split, poised', isClause, recorded⟩ := poised.limitClause properLeft run
    exact .inl ⟨clause, later, rowCount, offset, split, poised', isClause, .of_paginate recorded⟩
  · next noLimit =>
    have noLimit : ¬ BeginsWith [.keyword .limit] left := by
      refine poised.not_beginsWith (by decide) ?_
      rw [Cursor.checkAny, List.any_cons, List.any_nil, Bool.or_false]
      exact Bool.eq_false_iff.mpr noLimit
    obtain ⟨_, _, ⟨⟩, run⟩ := Walk.bind_eq_ok_iff.mp run
    split at run
    · obtain ⟨_, _, ⟨⟩, run⟩ := Walk.bind_eq_ok_iff.mp run
      split at run
      · obtain ⟨clause, later, rowCount, offset, split, poised', isClause, recorded⟩ := poised.offsetFetchClause properLeft run
        exact .inl ⟨clause, later, rowCount, offset, split, poised', isClause, .of_paginate recorded⟩
      · next isMysql =>
        obtain ⟨-, rfl⟩ := Walk.pure_eq_ok_iff.mp run
        refine .inr ⟨rfl, fun begins => begins.elim noLimit fun other => isMysql ?_⟩
        rw [poised, Cursor.along_dialect]
        exact other.1
    · next noOffset =>
      obtain ⟨-, rfl⟩ := Walk.pure_eq_ok_iff.mp run
      refine .inr ⟨rfl, fun begins => begins.elim noLimit fun other => ?_⟩
      exact poised.not_beginsWith (by decide) (Bool.eq_false_iff.mpr noOffset) other.2

omit poised in
/-- Behind an ordering a level records its pagination clause. -/
theorem single_paged (order : List Token) {mid : List Token} (noOperator : ¬ BeginsWith setOperators left) (split : left = order ++ mid)
    (ordered : OrderText d p before order mid) (poised' : Poised d p (before ++ order) mid t)
    (same : Statement.Records [] s.statement t.statement) (run : Walk.paginationEnd true t = .ok () u) :
    ∃ tail later level, left = tail ++ later ∧ Poised d p (before ++ tail) later u ∧ LevelText d p before tail later level ∧
      Statement.Records level.page?.toList s.statement u.statement := by
  have whole' : ts = before ++ order ++ mid := by rw [whole, split, List.append_assoc]
  have locks : Walk.Gathering d p ts false Walk.lockingClause := .lockingClause proper
  obtain ⟨_, v, pages, locked⟩ := Walk.bind_eq_ok_iff.mp run
  rcases pagination_paged proper whole' poised' pages with
    ⟨clause, mid', rowCount, offset, rfl, poised₂, isClause, paged⟩ | ⟨rfl, noPage⟩
  · obtain ⟨locking, later, rfl, poised₃, same'⟩ := locks.unpaged (by simp [whole, split]) poised₂ locked
    have paged : Statement.Records [⟨rowCount, offset⟩] s.statement v.statement := same.trans paged
    refine ⟨order ++ (clause ++ locking), later, .single (some ⟨rowCount, offset⟩), by simp [split], by simpa using poised₃, ?_,
      paged.kept same'⟩
    exact .paged (split ▸ noOperator) ordered isClause ⟨v, u, poised₂, locked, poised₃⟩
  · obtain ⟨locking, later, rfl, poised₃, same'⟩ := locks.unpaged whole' poised' locked
    refine ⟨order ++ locking, later, .single none, by simp [split], by simpa using poised₃, ?_, same.trans same'⟩
    exact .bare (split ▸ noOperator) ordered noPage ⟨v, u, poised', locked, poised₃⟩

/-- A level records its pagination clause unless it goes on with a set operation. -/
theorem level_paged {depth : Nat} (run : Walk.queryEnd depth true s = .ok () u) :
    ∃ tail later level, left = tail ++ later ∧ Poised d p (before ++ tail) later u ∧ LevelText d p before tail later level ∧
      Statement.Records level.page?.toList s.statement u.statement := by
  have properLeft : Proper left := proper.rest whole
  have nested : NestedGathering d p ts depth := .all proper depth
  obtain ⟨isSet, s₁, eats, ending⟩ := Walk.bind_eq_ok_iff.mp run
  have eaten := poised.eatAny properLeft (by decide) eats
  cases isSet with
  | true =>
    obtain ⟨op, mid, passed, isOperator⟩ := eaten
    have others : Walk.Gathering d p ts false
        (do discard (Walk.eatAny [.keyword .all, .keyword .distinct]); Walk.queryWithin depth false) :=
      .bind (.discards (.eatAny proper _)) fun _ => nested.query false
    obtain ⟨rest, later, rfl, poised', same⟩ := others.unpaged (by simp [whole, passed.split]) passed.poised ending
    refine ⟨op :: rest, later, .joined, passed.split, by simpa using poised', ?_, ?_⟩
    · exact .joined isOperator ⟨s₁, u, passed.poised, ending, poised'⟩
    · rwa [passed.unchanged] at same
  | false =>
    obtain rfl : s₁ = s := eaten
    have noOperator : ¬ BeginsWith setOperators left := poised.not_beginsWith (by decide) (Walk.checkAny_of_eatAny_false eats)
    obtain ⟨isOrder, s₂, eatsOrder, last⟩ := Walk.bind_eq_ok_iff.mp ending
    have eaten := poised.eat properLeft rfl eatsOrder
    cases isOrder with
    | true =>
      obtain ⟨word, mid, passed, isWord⟩ := eaten
      obtain ⟨_, s₃, expects, last⟩ := Walk.bind_eq_ok_iff.mp last
      obtain ⟨byWord, mid', passed', isBy⟩ := passed.poised.expect (passed.proper properLeft) rfl expects
      obtain ⟨_, s₄, keysRun, last⟩ := Walk.bind_eq_ok_iff.mp last
      have both := passed.trans passed'
      obtain ⟨keys, mid'', rfl, poised', same⟩ :=
        (nested.expression TokenKind.endsClause).unpaged (by simp [whole, both.split]) both.poised keysRun
      rw [both.unchanged] at same
      refine single_paged proper whole (word :: byWord :: keys) noOperator both.split ?_ (by simpa using poised') same last
      exact .keys isWord isBy ⟨s₃, s₄, both.poised, keysRun, poised'⟩
    | false =>
      obtain rfl : s₂ = s₁ := eaten
      have noOrder : ¬ BeginsWith [.keyword .order] left := poised.not_beginsWith_of_eat rfl eatsOrder
      exact single_paged proper whole [] noOperator rfl (.absent noOrder) (by simpa using poised) (.none rfl rfl) last

end

/-- A query records the page of its outermost level that has one. -/
theorem query_paged (proper : Proper ts) {depth : Nat} (whole : ts = before ++ left) (poised : Poised d p before left s)
    (run : Walk.queryWithin depth true s = .ok () u) :
    ∃ taken later levels top, left = taken ++ later ∧ Poised d p (before ++ taken) later u ∧
      QueryText d p before taken later levels top ∧
      Statement.Records (Page.recorded levels top) s.statement u.statement := by
  induction depth generalizing before left s u with
  | zero => cases run
  | succ depth ih =>
    have properLeft : Proper left := proper.rest whole
    rw [Walk.queryWithin] at run
    obtain ⟨isGroup, s₁, eats, body⟩ := Walk.bind_eq_ok_iff.mp run
    have eaten := poised.eat properLeft rfl eats
    cases isGroup with
    | true =>
      obtain ⟨opening, mid, passed, isOpening⟩ := eaten
      obtain ⟨_, s₂, inside, body⟩ := Walk.bind_eq_ok_iff.mp body
      obtain ⟨_, s₃, closes, ending⟩ := Walk.bind_eq_ok_iff.mp body
      have whole₁ : ts = (before ++ [opening]) ++ mid := by simp [whole, passed.split]
      obtain ⟨inner, mid₂, levels, top, rfl, poised₂, isQuery, paged⟩ := ih whole₁ passed.poised inside
      obtain ⟨closing, mid₃, passed₃, isClosing⟩ :=
        poised₂.expect (passed.proper properLeft).right rfl closes
      obtain rfl : mid₂ = closing :: mid₃ := passed₃.split
      have place : before ++ [opening] ++ inner ++ [closing] = before ++ opening :: (inner ++ [closing]) := by simp
      have poised₃ := passed₃.poised
      rw [place] at poised₃
      obtain ⟨tail, later, level, rfl, poised₄, isLevel, paged'⟩ :=
        level_paged proper (by simp [whole₁]) poised₃ ending
      refine ⟨opening :: (inner ++ closing :: tail), later, level :: levels, top, by simp [passed.split], by simpa using poised₄,
        .group isOpening isClosing isQuery isLevel, ?_⟩
      rw [passed.unchanged] at paged
      rw [passed₃.unchanged] at paged'
      rw [Page.recorded_cons]
      exact paged.trans paged'
    | false =>
      obtain rfl : s₁ = s := eaten
      obtain ⟨_, s₂, selects, ending⟩ := Walk.bind_eq_ok_iff.mp body
      obtain ⟨core, mid, top, rfl, poised₂, isSelect, paged⟩ := select_paged proper whole poised selects
      obtain ⟨tail, later, level, rfl, poised₃, isLevel, paged'⟩ :=
        level_paged proper (by simp [whole]) poised₂ ending
      refine ⟨core ++ tail, later, [level], top, by simp, by simpa using poised₃, .select isSelect isLevel, ?_⟩
      rw [Page.recorded_cons, Page.recorded_nil]
      exact paged.trans paged'

/-! ## Statements -/

/-- Behind a statement stands a semicolon or nothing. -/
theorem Poised.closes (proper : Proper left) (poised : Poised d p before left s) {stmt : Statement}
    (run : (do
      discard (Walk.eat (.symbol .semicolon))
      if !(← Walk.isAtEnd) then Walk.failExpected .endOfStatement) s = .ok () ⟨.along d p n [], stmt⟩) :
    left.map (·.kind) ∈ [[], [.symbol .semicolon]] ∧ stmt = s.statement := by
  obtain ⟨_, t, eats, run⟩ := Walk.bind_eq_ok_iff.mp run
  obtain ⟨isClosed, eats, -⟩ := Walk.map_eq_ok_iff.mp eats
  obtain ⟨atEnd, _, ⟨⟩, run⟩ := Walk.bind_eq_ok_iff.mp run
  obtain rfl : t = ⟨.along d p n [], stmt⟩ := by
    split at run
    · cases run
    · exact (Walk.pure_eq_ok_iff.mp run).2
  have eaten := poised.eat proper rfl eats
  cases isClosed with
  | true =>
    obtain ⟨semicolon, mid, passed, isSemicolon⟩ := eaten
    have nothing : mid = [] := Cursor.along_injective (passed.proper proper) nofun passed.poised.symm
    rw [passed.split, nothing]
    exact ⟨by simp [isSemicolon], passed.unchanged⟩
  | false =>
    obtain rfl : _ = s := eaten
    have nothing : left = [] := Cursor.along_injective proper nofun poised.symm
    exact ⟨by simp [nothing], rfl⟩

/-- A query records the pages of its levels, from the innermost to the outermost, behind the `TOP` of the select that it
begins with. Nothing but a semicolon stands behind the query. -/
theorem records_of_parse {sql : String} {stmt : Statement} {e : Place} (parsed : parse d sql = .ok stmt)
    (tokens : tokenize d sql = .ok (ts ++ [Token.endAt e])) (begins : BeginsWith [.keyword .select, .symbol .leftParen] ts) :
    ∃ taken later levels top s n, ts = taken ++ later ∧ later.map (·.kind) ∈ [[], [.symbol .semicolon]] ∧
      QueryText d e [] taken later levels top ∧ Statement.Records (Page.recorded levels top) (.ofKind .select) s ∧
      stmt = s.finish n := by
  obtain ⟨kind, p, us, n, s, reads, isFirst, run, rfl⟩ := parse_eq_ok_iff.mp parsed
  obtain rfl : us = ts := reads.eq_of_tokenize tokens
  obtain rfl : p = e := reads.end_eq_of_tokenize tokens
  have proper : Proper us := reads.proper
  obtain ⟨t, rest, rfl, isWord⟩ := begins
  obtain rfl : kind = .select := by
    rw [Cursor.along_cons_kind] at isFirst
    simp only [List.mem_cons, List.not_mem_nil, or_false] at isWord
    rcases isWord with same | same <;> rw [same] at isFirst <;> cases isFirst <;> rfl
  obtain ⟨_, s₁, queries, run⟩ := Walk.bind_eq_ok_iff.mp run
  obtain ⟨depth, _, ⟨⟩, queries⟩ := Walk.bind_eq_ok_iff.mp queries
  have atStart : Poised d p [] (t :: rest) ⟨.along d p 0 (t :: rest), .ofKind .select⟩ := rfl
  obtain ⟨taken, later, levels, top, split, poised, isQuery, paged⟩ := query_paged proper rfl atStart queries
  obtain ⟨closed, rfl⟩ := poised.closes (proper.rest split) run
  exact ⟨taken, later, levels, top, s₁.statement, n, split, closed, isQuery, paged, rfl⟩

/-- The pagination of a query is the page of its outermost level that has one, or else the `TOP` of the select that it
begins with. Nothing but a semicolon stands behind the query. -/
theorem limit_of_parse {sql : String} {stmt : Statement} {e : Place} (parsed : parse d sql = .ok stmt)
    (tokens : tokenize d sql = .ok (ts ++ [Token.endAt e])) (begins : BeginsWith [.keyword .select, .symbol .leftParen] ts) :
    ∃ taken later levels top, ts = taken ++ later ∧ later.map (·.kind) ∈ [[], [.symbol .semicolon]] ∧
      QueryText d e [] taken later levels top ∧
      Statement.PagedBy (Page.outermost levels top) (.ofKind .select) stmt := by
  obtain ⟨taken, later, levels, top, s, n, split, closed, isQuery, paged, rfl⟩ := records_of_parse parsed tokens begins
  refine ⟨taken, later, levels, top, split, closed, isQuery, ?_⟩
  rw [← Page.getLast?_recorded]
  exact paged.limit

/-- The pagination of the first branch stands for that of the whole set operation, and the one behind the last branch for
none. -/
example :
    (parse .mysql "(SELECT a FROM t LIMIT 5) UNION SELECT a FROM u").map (·.limit) = .ok (some ⟨some (.literal 5), none, true⟩) ∧
    (parse .mysql "SELECT a FROM t UNION SELECT a FROM u LIMIT 10").map (·.limit) = .ok none := by
  decide +kernel

/-- A query without set operators has no level that goes on with one, so its pagination is its outermost one. -/
theorem QueryText.joined_notMem {levels : List Level} {top : Option Page} (isQuery : QueryText d p before taken later levels top)
    (noOperator : ∀ t ∈ taken, t.kind ∉ setOperators) : .joined ∉ levels := by
  have single {before tail later : List Token} {level : Level} (isLevel : LevelText d p before tail later level)
      (noOperator : ∀ t ∈ tail, t.kind ∉ setOperators) : level ≠ .joined := by
    rintro rfl
    obtain ⟨isOperator, -⟩ := isLevel
    exact noOperator _ List.mem_cons_self isOperator
  induction isQuery with
  | select _ isLevel =>
    have other := single isLevel fun t member => noOperator t (List.mem_append_right _ member)
    exact fun member => other (List.mem_singleton.mp member).symm
  | group _ _ _ isLevel ih =>
    have other := single isLevel fun t member => noOperator t (by simp [member])
    have inside := ih fun t member => noOperator t (by simp [member])
    rintro (_ | ⟨_, member⟩)
    · exact other rfl
    · exact inside member

end SqlSharding.Sql
