import SqlSharding.Proofs.QueryLevels

/-!
# Recorded bounds

A pagination clause that is recorded replaces the pagination of its statement, but its literal bounds join those of the
clauses before it. So the places of bounds are exactly the literal bounds of the pagination as long as one clause is
recorded. Only a query can have more: in parentheses, with a clause inside and one behind them, and where a `TOP` and a
clause at its end both belong to one select.
-/

namespace SqlSharding.Sql

variable {d : Dialect} {p : Place} {ts before left : List Token} {α β : Type}

/-! ## Statements with one pagination clause -/

/-- Wherever a walk stands in a text, it records one page at most. -/
def Walk.RecordsOnce (d : Dialect) (p : Place) (ts : List Token) (m : Walk α) : Prop :=
  ∀ before left s a u, ts = before ++ left → Poised d p before left s → m s = .ok a u →
    ∃ taken later, ∃ page : Option Page, left = taken ++ later ∧ Poised d p (before ++ taken) later u ∧
      Statement.Records page.toList s.statement u.statement

namespace Walk.RecordsOnce

variable {m : Walk α} {f : α → Walk β}

theorem of_gathering (gathering : Gathering d p ts false m) : RecordsOnce d p ts m := by
  intro before left s a u whole poised run
  obtain ⟨taken, later, split, poised', records⟩ := gathering.unpaged whole poised run
  exact ⟨taken, later, none, split, poised', records⟩

/-- A walk behind one that records no page. -/
theorem after (first : Gathering d p ts false m) (next : ∀ a, RecordsOnce d p ts (f a)) : RecordsOnce d p ts (m >>= f) := by
  intro before left s b u whole poised run
  obtain ⟨a, t, firstRun, nextRun⟩ := bind_eq_ok_iff.mp run
  obtain ⟨taken, mid, rfl, poised₁, records⟩ := first.unpaged whole poised firstRun
  obtain ⟨taken', later, page, rfl, poised₂, records'⟩ := next a (before ++ taken) mid t b u (by simp [whole]) poised₁ nextRun
  exact ⟨taken ++ taken', later, page, by simp, by simpa using poised₂, records.trans records'⟩

/-- A walk in front of one that records no page. -/
theorem followed (first : RecordsOnce d p ts m) (next : ∀ a, Gathering d p ts false (f a)) : RecordsOnce d p ts (m >>= f) := by
  intro before left s b u whole poised run
  obtain ⟨a, t, firstRun, nextRun⟩ := bind_eq_ok_iff.mp run
  obtain ⟨taken, mid, page, rfl, poised₁, records⟩ := first before left s a t whole poised firstRun
  obtain ⟨taken', later, rfl, poised₂, records'⟩ := (next a).unpaged (by simp [whole]) poised₁ nextRun
  exact ⟨taken ++ taken', later, page, by simp, by simpa using poised₂, records.kept records'⟩

theorem ite {c : Prop} [Decidable c] {m n : Walk α} (yes : RecordsOnce d p ts m) (no : RecordsOnce d p ts n) :
    RecordsOnce d p ts (if c then m else n) := by
  split
  · exact yes
  · exact no

/-- A step that may be left out, before more steps. -/
theorem perhaps {c : Prop} [Decidable c] {m : Walk Unit} {f : Unit → Walk β} (yes : Gathering d p ts false m)
    (next : RecordsOnce d p ts (f ())) : RecordsOnce d p ts (if c then m >>= f else f ()) :=
  ite (after yes fun _ => next) next

variable (proper : Proper ts)

include proper

theorem limitClause : RecordsOnce d p ts (Walk.limitClause true) := by
  intro before left s a u whole poised run
  have properLeft : Proper left := proper.rest whole
  obtain ⟨clause, later, rowCount, offset, split, poised', -, recorded⟩ := poised.limitClause properLeft run
  exact ⟨clause, later, some ⟨rowCount, offset⟩, split, poised', .of_paginate recorded⟩

theorem orderAndLimit : RecordsOnce d p ts orderAndLimit := by
  have limit : RecordsOnce d p ts (do if ← Walk.check (.keyword .limit) then Walk.limitClause true) :=
    .after (.check _) fun _ => .ite (limitClause proper) (.of_gathering .pure)
  refine .after (.eat proper _) fun _ => .ite ?_ limit
  exact .after (.expect proper _) fun _ => .after (.expression proper _) fun _ => limit

theorem updateStatement : RecordsOnce d p ts updateStatement := by
  refine .after (.expect proper _) fun _ => .after (.skipAll proper _) fun _ => .after (.check _) fun _ => ?_
  refine .perhaps (.topClause proper) (.after (.tableReferences proper) fun _ => ?_)
  refine .after (.setClause proper) fun _ => .after (.eat proper _) fun _ => .perhaps (.expression proper _) ?_
  refine .after (.eat proper _) fun _ => .perhaps (.tableReferences proper) (.after (.whereClause proper) fun _ => ?_)
  exact orderAndLimit proper

theorem deleteStatement : RecordsOnce d p ts deleteStatement := by
  have ending : RecordsOnce d p ts deleteEnd := by
    refine .after (.eat proper _) fun _ => .perhaps (.expression proper _) (.after (.eat proper _) fun _ => ?_)
    exact .perhaps (.tableReferences proper) (.after (.whereClause proper) fun _ => orderAndLimit proper)
  have sources : RecordsOnce d p ts deleteSources := by
    refine .after (.eat proper _) fun _ => .ite (.after (.tableReferences proper) fun _ => ending) ?_
    refine .after (.deleteTargets proper) fun targets => .after (.eat proper _) fun _ => ?_
    have records : RecordsOnce d p ts (do Walk.record (targets.foldl addTarget); deleteEnd) :=
      .after (.record fun s => .addTargets targets s) fun _ => ending
    exact .perhaps (.tableReferences proper) records
  refine .after (.expect proper _) fun _ => .after (.skipAll proper _) fun _ => .after (.check _) fun _ => ?_
  exact .perhaps (.topClause proper) sources

/-- Only a query may record more than one page. -/
theorem wholeStatement (inOrder : InOrder ts) {kind : StatementKind} (other : kind ≠ .select) :
    RecordsOnce d p ts (wholeStatement kind) := by
  have statement : RecordsOnce d p ts (Walk.statementOf kind) := by
    cases kind with
    | select => exact absurd rfl other
    | insert => exact .of_gathering (.insertStatement proper inOrder)
    | update => exact updateStatement proper
    | delete => exact deleteStatement proper
    | definition => exact .of_gathering (.definitionStatement proper)
  refine .followed statement fun _ => .bind (.discards (.eat proper _)) fun _ => ?_
  exact .bind (.of_stays (by rintro s a t ⟨⟩; rfl)) fun _ => .ite (.fails failExpected_fails) .pure

end Walk.RecordsOnce

/-! ## Complete statements -/

variable {sql : String} {stmt : Statement} {e : Place} {pages : List Page} {s : Statement} {q : RewritePoint} {n : Nat}

/-- The places of bounds are the literal bounds of the pages that have been recorded. -/
theorem Statement.Records.mem_finish_iff {kind : StatementKind} (records : Records pages (.ofKind kind) s) (isBound : q.isBound = true) :
    q ∈ (s.finish n).points ↔ ∃ g ∈ pages, q ∈ g.points := by
  have inBounds : q ∈ s.points ↔ q ∈ pages.flatMap Page.points := by
    have bounds : s.bounds = pages.flatMap Page.points := records.bounds
    rw [← bounds, Statement.bounds, List.mem_filter, and_iff_left isBound]
  rw [← List.mem_flatMap, ← inBounds]
  refine ⟨fun member => Statement.mem_finish member ?_, fun member => mem_sortPoints.mpr (List.mem_append_left _ member)⟩
  rintro x rfl
  cases isBound

theorem beginsWith_of_select (isFirst : StatementKind.ofFirst? (Cursor.along d p n ts).kind = some .select) :
    BeginsWith [.keyword .select, .symbol .leftParen] ts := by
  cases ts with
  | nil => cases isFirst
  | cons t rest =>
    refine ⟨t, rest, rfl, ?_⟩
    rw [Cursor.along_cons_kind] at isFirst
    unfold StatementKind.ofFirst? at isFirst
    split at isFirst <;> simp_all

/-- The places of bounds of a statement are the literal bounds of the pages that it records, and its pagination is the last
of them. For a query these are the pages of its levels, from the innermost to the outermost, behind the `TOP` of the select
that it begins with. All other statements record one page at most. -/
theorem bounds_of_parse (parsed : parse d sql = .ok stmt) (tokens : tokenize d sql = .ok (ts ++ [Token.endAt e])) :
    ∃ kind pages, Statement.PagedBy pages.getLast? (.ofKind kind) stmt ∧
      (∀ q : RewritePoint, q.isBound = true → (q ∈ stmt.points ↔ ∃ g ∈ pages, q ∈ g.points)) ∧
      (pages.length ≤ 1 ∨ BeginsWith [.keyword .select, .symbol .leftParen] ts ∧
        ∃ taken later levels top, ts = taken ++ later ∧ later.map (·.kind) ∈ [[], [.symbol .semicolon]] ∧
          QueryText d e [] taken later levels top ∧ pages = Page.recorded levels top) := by
  by_cases begins : BeginsWith [.keyword .select, .symbol .leftParen] ts
  · obtain ⟨taken, later, levels, top, s, n, split, closed, isQuery, records, rfl⟩ := records_of_parse parsed tokens begins
    exact ⟨.select, _, records.limit, fun q => records.mem_finish_iff,
      .inr ⟨begins, taken, later, levels, top, split, closed, isQuery, rfl⟩⟩
  · obtain ⟨kind, p, us, n, s, reads, isFirst, run, rfl⟩ := parse_eq_ok_iff.mp parsed
    obtain rfl : us = ts := reads.eq_of_tokenize tokens
    have other : kind ≠ .select := by
      rintro rfl
      exact begins (beginsWith_of_select isFirst)
    have inOrder := (laid_of_reads reads).spaced.inOrder
    have atStart : Poised d p [] us ⟨.along d p 0 us, .ofKind kind⟩ := rfl
    obtain ⟨taken, later, page, -, -, records⟩ :=
      Walk.RecordsOnce.wholeStatement reads.proper inOrder other [] us _ () _ rfl atStart run
    exact ⟨kind, page.toList, records.limit, fun q => records.mem_finish_iff, .inl (by cases page <;> simp)⟩

/-! ## One page -/

def RewritePoint.isOffset : RewritePoint → Bool
  | offset .. => true
  | _ => false

def RewritePoint.isRowCount : RewritePoint → Bool
  | rowCount .. => true
  | _ => false

/-- The places of bounds of a statement are those of the literal bounds of its pagination, one for each. -/
structure Statement.ExactBounds (s : Statement) : Prop where
  offset : ∀ i, (∃ span, .offset span i ∈ s.points) ↔ ∃ l, s.limit = some l ∧ l.offset = some (.literal i)
  rowCount : ∀ i, (∃ span, .rowCount span i ∈ s.points) ↔ ∃ l, s.limit = some l ∧ l.rowCount = some (.literal i)
  oneOffset : s.points.countP RewritePoint.isOffset ≤ 1
  oneRowCount : s.points.countP RewritePoint.isRowCount ≤ 1

theorem Page.offset_mem_points {g : Page} {span : Span} {i : Int64} :
    .offset span i ∈ g.points ↔ g.offset = some ⟨.literal i, span⟩ := by
  refine ⟨fun member => ?_, fun isOffset => by simp [points, boundPoints, isOffset]⟩
  rcases List.mem_append.mp member with inOffset | inRowCount
  · obtain ⟨span', i', isOffset, same⟩ := Gathered.mem_boundPoints inOffset
    cases same
    exact isOffset
  · obtain ⟨span', i', -, same⟩ := Gathered.mem_boundPoints inRowCount
    cases same

theorem Page.rowCount_mem_points {g : Page} {span : Span} {i : Int64} :
    .rowCount span i ∈ g.points ↔ g.rowCount = some ⟨.literal i, span⟩ := by
  refine ⟨fun member => ?_, fun isRowCount => by simp [points, boundPoints, isRowCount]⟩
  rcases List.mem_append.mp member with inOffset | inRowCount
  · obtain ⟨span', i', -, same⟩ := Gathered.mem_boundPoints inOffset
    cases same
  · obtain ⟨span', i', isRowCount, same⟩ := Gathered.mem_boundPoints inRowCount
    cases same
    exact isRowCount

/-- Where all points of a kind are the same one, there is one of them at most. -/
theorem Sited.countP_le_one {points : List RewritePoint} {test : RewritePoint → Bool} (sited : Sited ts points)
    (unique : ∀ q ∈ points, ∀ r ∈ points, test q = true → test r = true → q = r) : points.countP test ≤ 1 := by
  rw [List.countP_eq_length_filter]
  have apart := sited.apart.filter test
  have same : ∀ q ∈ points.filter test, ∀ r ∈ points.filter test, q = r := fun q first r second =>
    unique q (List.mem_filter.mp first).1 r (List.mem_filter.mp second).1 (List.mem_filter.mp first).2 (List.mem_filter.mp second).2
  generalize points.filter test = found at apart same
  match found with
  | [] | [_] => simp
  | q :: r :: rest =>
    have ordered := List.rel_of_pairwise_cons apart List.mem_cons_self
    rw [same q List.mem_cons_self r (List.mem_cons_of_mem q List.mem_cons_self)] at ordered
    exact absurd ordered (Nat.lt_irrefl _)

/-- The places of bounds are exact where one page is recorded at most. -/
theorem Statement.exactBounds {kind : StatementKind} {page : Option Page}
    (paged : PagedBy page (.ofKind kind) stmt) (sited : Sited ts stmt.points)
    (recorded : ∀ q : RewritePoint, q.isBound = true → (q ∈ stmt.points ↔ ∃ g ∈ page, q ∈ g.points)) : stmt.ExactBounds := by
  have isOffset {span : Span} {i : Int64} :
      .offset span i ∈ stmt.points ↔ ∃ g ∈ page, g.offset = some ⟨.literal i, span⟩ := by
    rw [recorded _ rfl]
    simp only [Page.offset_mem_points]
  have isRowCount {span : Span} {i : Int64} :
      .rowCount span i ∈ stmt.points ↔ ∃ g ∈ page, g.rowCount = some ⟨.literal i, span⟩ := by
    rw [recorded _ rfl]
    simp only [Page.rowCount_mem_points]
  have literal {b : Option PlacedBound} {i : Int64} :
      (∃ span, b = some ⟨.literal i, span⟩) ↔ b.map (·.bound) = some (.literal i) := by
    match b with
    | none => simp
    | some ⟨bound, span⟩ => simp
  refine ⟨fun i => ?_, fun i => ?_, sited.countP_le_one ?_, sited.countP_le_one ?_⟩
  · simp only [isOffset]
    cases page with
    | none => simp [show stmt.limit = none from paged]
    | some g =>
      obtain ⟨rewritable, isLimit⟩ := paged
      simp [isLimit, literal]
  · simp only [isRowCount]
    cases page with
    | none => simp [show stmt.limit = none from paged]
    | some g =>
      obtain ⟨rewritable, isLimit⟩ := paged
      simp [isLimit, literal]
  · rintro (_ | ⟨span, i⟩ | _ | _) first (_ | ⟨span', i'⟩ | _ | _) second here here' <;> try contradiction
    obtain ⟨g, isPage, same⟩ := isOffset.mp first
    obtain ⟨g', isPage', same'⟩ := isOffset.mp second
    obtain rfl := Option.mem_unique isPage isPage'
    cases same.symm.trans same'
    rfl
  · rintro (_ | _ | ⟨span, i⟩ | _) first (_ | _ | ⟨span', i'⟩ | _) second here here' <;> try contradiction
    obtain ⟨g, isPage, same⟩ := isRowCount.mp first
    obtain ⟨g', isPage', same'⟩ := isRowCount.mp second
    obtain rfl := Option.mem_unique isPage isPage'
    cases same.symm.trans same'
    rfl

/-- A query that begins with a select without `TOP` has one level, which has one page at most. -/
theorem QueryText.length_recorded_le {before taken later : List Token} {levels : List Level} {top : Option Page}
    (isQuery : QueryText d p before taken later levels top) (noGroup : ¬ BeginsWith [.symbol .leftParen] taken)
    (noTop : ∀ t ∈ taken ++ later, t.kind ≠ .keyword .top) : (Page.recorded levels top).length ≤ 1 := by
  cases isQuery with
  | group isOpening => exact absurd ⟨_, _, rfl, by simp [isOpening]⟩ noGroup
  | @select before core tail later level top isSelect isLevel =>
    obtain ⟨word, modifiers, rest, split, -, -, -, isTop⟩ := isSelect.top
    have noPage : top = none := by
      cases isTop with
      | absent | expression => rfl
      | @bound clause rest b begins isClause =>
        obtain ⟨t, more, rfl, isWord⟩ := begins
        refine absurd (List.mem_singleton.mp isWord) (noTop t ?_)
        rw [List.append_assoc, split]
        simp
    rw [noPage, Page.recorded_cons, Page.recorded_nil]
    cases level.page? <;> simp

/-- The places of bounds are exact, unless a query begins with a parenthesis or has a `TOP`. -/
theorem exactBounds_of_parse (parsed : parse d sql = .ok stmt) (tokens : tokenize d sql = .ok (ts ++ [Token.endAt e]))
    (noGroup : ¬ BeginsWith [.symbol .leftParen] ts)
    (noTop : BeginsWith [.keyword .select] ts → ∀ t ∈ ts, t.kind ≠ .keyword .top) : stmt.ExactBounds := by
  obtain ⟨_, us, reads, sited⟩ := sited_of_parse parsed
  obtain rfl : us = ts := reads.eq_of_tokenize tokens
  obtain ⟨kind, pages, paged, recorded, few⟩ := bounds_of_parse parsed tokens
  have few : pages.length ≤ 1 := by
    rcases few with few | ⟨begins, taken, later, levels, top, split, closed, isQuery, rfl⟩
    · exact few
    · have noGroup' : ¬ BeginsWith [.symbol .leftParen] taken := by
        rintro ⟨t, rest, rfl, isWord⟩
        exact noGroup ⟨t, rest ++ later, split, isWord⟩
      have isSelect : BeginsWith [.keyword .select] us := by
        obtain ⟨t, rest, whole, isWord⟩ := begins
        rcases List.mem_pair.mp isWord with same | same
        · exact ⟨t, rest, whole, List.mem_singleton.mpr same⟩
        · exact absurd ⟨t, rest, whole, List.mem_singleton.mpr same⟩ noGroup
      exact isQuery.length_recorded_le noGroup' (split ▸ noTop isSelect)
  have sole (g : Page) : g ∈ pages ↔ g ∈ pages.getLast? := by
    rcases pages with _ | ⟨h, _ | ⟨_, _⟩⟩
    · simp
    · simp [eq_comm]
    · simp at few
  exact Statement.exactBounds paged sited fun q isBound => by simp only [recorded q isBound, sole]

/-- The bounds of an inner select are recorded beside those of the pagination. -/
example : (draft? .mysql "(SELECT a FROM t LIMIT 3, 5) LIMIT 10").map (fun x => (x.1.limit, x.1.points)) =
    some (some ⟨some (.literal 10), none, true⟩,
      [.table ⟨15, 16⟩ "t" none, .offset ⟨23, 24⟩ 3, .rowCount ⟨26, 27⟩ 5, .rowCount ⟨35, 37⟩ 10]) := by
  decide +kernel

end SqlSharding.Sql
