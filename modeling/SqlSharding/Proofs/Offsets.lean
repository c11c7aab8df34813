import SqlSharding.Proofs.Clauses
import SqlSharding.Proofs.Exchanges

/-!
# What follows an offset

A recorded offset stands at the end of a query or of a statement, so the token behind it is no name, unless it is the word of a
locking clause. Only a name could go on a zero that takes the place of the offset.
-/

namespace SqlSharding.Sql

/-! ## Neighbours in the text -/

variable {d : Dialect} {p : Place} {ts before left taken later : List Token} {s u : WalkState}

/-- The token behind a token of a text is the first one of the rest of the text. -/
theorem Spaced.head?_of_adjacent {front back : List Token} {t v : Token} (spaced : Spaced (front ++ t :: back))
    (adjacent : Adjacent (front ++ t :: back) t v) : back.head? = some v := by
  obtain ⟨front', after, split⟩ := adjacent
  obtain ⟨-, rfl⟩ := spaced.eq_of_split rfl split
  rfl

/-- In a pagination clause no name stands behind the offset. -/
theorem PageClause.behind_offset {n : Nat} {rowCount : Option PlacedBound} {i : Int64} {span : Span}
    (clause : PageClause n taken rowCount (some ⟨.literal i, span⟩)) :
    ∃ front t back, taken = front ++ t :: back ∧ t.span = span ∧ ∀ v ∈ back.head?, v.kind.isIdentifier = false := by
  have token {m : Nat} {t : Token} (spelled : PlacedBound.Spelled m t ⟨.literal i, span⟩) : t.span = span := by
    cases spelled
    rfl
  have rowsIn {v : Token} (isRows : v.kind ∈ [.keyword .row, .keyword .rows]) : v.kind.isIdentifier = false := by
    simp only [List.mem_cons, List.not_mem_nil, or_false] at isRows
    rcases isRows with same | same <;> rw [same] <;> rfl
  have part {m : Nat} {us : List Token} (offset : OffsetPart m us ⟨.literal i, span⟩) :
      ∃ front t back, us = front ++ t :: back ∧ t.span = span ∧ ∀ v ∈ back.head?, v.kind.isIdentifier = false := by
    cases offset with
    | @bare word t _ _ spelled => exact ⟨[word], t, [], rfl, token spelled, nofun⟩
    | @rows word t rows _ _ spelled isRows => exact ⟨[word], t, [rows], rfl, token spelled, by rintro _ ⟨⟩; exact rowsIn isRows⟩
  cases clause with
  | @limitPair word t comma v _ b _ spelled isComma =>
    exact ⟨[word], t, [comma, v], rfl, token spelled, by rintro _ ⟨⟩; rw [isComma]; rfl⟩
  | @limitOffset word t offset v _ _ _ _ _ spelled => exact ⟨[word, t, offset], v, [], rfl, token spelled, nofun⟩
  | offset offset => exact part offset
  | @offsetFetch us vs _ _ offset fetch =>
    obtain ⟨front, t, back, rfl, same, behind⟩ := part offset
    refine ⟨front, t, back ++ vs, by simp, same, fun v first => ?_⟩
    obtain ⟨isFetch⟩ := fetch
    cases back with
    | nil =>
      cases first
      rw [isFetch]
      rfl
    | cons w back => exact behind v first

/-! ## Offsets and the tokens behind them -/

/-- Behind every recorded offset stands no name, other than the word of a locking clause. As long as it is open what follows the
last one, the current token is excepted. -/
structure Followed (d : Dialect) (p : Place) (ts : List Token) (isOpen : Bool) (s : WalkState) : Prop where
  poised : ∃ before left, ts = before ++ left ∧ Poised d p before left s
  offsets : ∀ span i, .offset span i ∈ s.statement.points → ∀ t v, Adjacent ts t v → t.span = span →
    v.kind.isIdentifier = true → v.kind.isWord "LOCK" = true ∨ isOpen = true ∧ v = s.cursor.current

namespace Followed

variable (followed : Followed d p ts false s)

include followed

theorem opened : Followed d p ts true s where
  poised := followed.poised
  offsets span i member t v adjacent here names :=
    (followed.offsets span i member t v adjacent here names).imp_right fun never => (Bool.false_ne_true never.1).elim

/-- Recording something else. -/
theorem record {st : Statement} (same : ∀ span i, .offset span i ∈ st.points → .offset span i ∈ s.statement.points) :
    Followed d p ts false { s with statement := st } :=
  ⟨followed.poised, fun span i member => followed.offsets span i (same span i member)⟩

/-- Recording what a pagination clause says. -/
theorem paginate (spaced : Spaced ts) {r : Bool} {n : Nat} {rowCount offset : Option PlacedBound} (whole : ts = before ++ left)
    (split : left = taken ++ later) (poised : Poised d p (before ++ taken) later u) (clause : PageClause n taken rowCount offset)
    (recorded : u.statement = if r then s.statement.paginate rowCount offset true else s.statement) :
    Followed d p ts true u := by
  refine ⟨⟨before ++ taken, later, by rw [whole, split, List.append_assoc], poised⟩, ?_⟩
  intro span i member t v adjacent here names
  have known (old : .offset span i ∈ s.statement.points) :
      v.kind.isWord "LOCK" = true ∨ true = true ∧ v = u.cursor.current :=
    (followed.offsets span i old t v adjacent here names).imp_right fun never => (Bool.false_ne_true never.1).elim
  cases r with
  | false =>
    rw [recorded, if_neg Bool.false_ne_true] at member
    exact known member
  | true =>
    rw [recorded, if_pos rfl, Statement.paginate_eq] at member
    rcases List.mem_append.mp member with old | new
    · exact known old
    rcases List.mem_append.mp new with isOffset | isRow
    · match offset, isOffset with
      | some ⟨.literal j, span'⟩, isOffset =>
        cases List.mem_singleton.mp isOffset
        obtain ⟨front, t', back, rfl, here', behind⟩ := clause.behind_offset
        have text : ts = (before ++ front) ++ t' :: (back ++ later) := by rw [whole, split]; simp
        subst text
        obtain ⟨_, _, cut⟩ := id adjacent
        obtain rfl := spaced.eq_of_start (cut ▸ by simp) (by simp) (congrArg Span.start (here.trans here'.symm))
        have next := spaced.head?_of_adjacent adjacent
        cases back with
        | nil =>
          cases later with
          | nil => cases next
          | cons w later =>
            cases next
            exact .inr ⟨rfl, by rw [show u.cursor = _ from poised]; rfl⟩
        | cons w back =>
          cases next
          rw [behind v rfl] at names
          cases names
    · match rowCount, isRow with
      | some ⟨.literal j, span'⟩, isRow => cases List.mem_singleton.mp isRow

end Followed

/-- A token that is no name settles what follows the last offset. -/
theorem Followed.closed (followed : Followed d p ts true s)
    (other : s.cursor.kind.isIdentifier = true → s.cursor.kind.isWord "LOCK" = true) : Followed d p ts false s where
  poised := followed.poised
  offsets span i member t v adjacent here names := by
    rcases followed.offsets span i member t v adjacent here names with isLock | ⟨-, rfl⟩
    · exact .inl isLock
    · exact .inl (other names)

/-! ## Walks to the end of a statement -/

section Walks

variable (proper : Proper ts) (spaced : Spaced ts)

include proper

theorem followed_advance : Walk.Keeps (Followed d p ts false) Walk.advance := by
  intro s x u run followed
  obtain ⟨before, left, rfl, poised⟩ := followed.poised
  obtain ⟨taken, later, split, poised', unchanged⟩ := poised.silent proper.right run fun inStep =>
    (inStep.advance (b := false)).keeps
  refine ⟨⟨before ++ taken, later, by rw [split, List.append_assoc], poised'⟩, ?_⟩
  rw [unchanged]
  intro span i member t v adjacent here names
  exact (followed.offsets span i member t v adjacent here names).imp_right fun never => (Bool.false_ne_true never.1).elim

/-- Walks that record no offset keep what follows the offsets. -/
theorem followed_keptByRecords : Walk.KeptByRecords (Followed d p ts false) (· = false) where
  records_false := rfl
  advance := followed_advance proper
  conditions _ _ followed := followed.record fun _ _ => id
  rows _ _ _ followed := followed.record fun _ _ => id
  qualifier _ _ followed := followed.record fun _ _ => id
  table _ _ _ followed := followed.record fun _ _ member => (List.mem_append.mp member).resolve_right fun new => by
    cases List.mem_singleton.mp new
  paginate s rowCount offset rewritable records followed := by
    refine followed.record fun span i member => ?_
    cases offset with
    | some o => cases records rfl
    | none =>
      rw [Statement.paginate_eq] at member
      rcases List.mem_append.mp member with old | new
      · exact old
      · match rowCount, new with
        | some ⟨.literal _, _⟩, new => cases List.mem_singleton.mp new

include spaced

theorem followed_limitClause (r : Bool) : Walk.Leads (Followed d p ts false) (Followed d p ts true) (Walk.limitClause r) := by
  intro s _ u run followed
  obtain ⟨before, left, whole, poised⟩ := followed.poised
  obtain ⟨taken, later, rowCount, offset, split, poised', clause, recorded⟩ :=
    poised.limitClause (by rw [whole] at proper; exact proper.right) run
  exact followed.paginate spaced whole split poised' clause recorded

theorem followed_offsetFetchClause (r : Bool) :
    Walk.Leads (Followed d p ts false) (Followed d p ts true) (Walk.offsetFetchClause r) := by
  intro s _ u run followed
  obtain ⟨before, left, whole, poised⟩ := followed.poised
  obtain ⟨taken, later, rowCount, offset, split, poised', clause, recorded⟩ :=
    poised.offsetFetchClause (by rw [whole] at proper; exact proper.right) run
  exact followed.paginate spaced whole split poised' clause recorded

theorem followed_pagination : Walk.Leads (Followed d p ts false) (Followed d p ts true) (Walk.pagination true) := by
  have kept := followed_keptByRecords (d := d) (p := p) proper
  have skipped : Walk.Leads (Followed d p ts false) (Followed d p ts true) (pure ()) := .pure fun _ => Followed.opened
  refine .bind (kept.inStep.check (b := false) _).keeps fun isLimit => .ite (followed_limitClause proper spaced true) ?_
  refine .bind (kept.inStep.checkAny (b := false) _).keeps fun isOffset => .ite ?_ skipped
  exact .bind (kept.inStep.cursor (b := false)).keeps fun c => .ite (followed_offsetFetchClause proper spaced true) skipped

omit spaced in
/-- A locking clause begins with a keyword or with its word. -/
theorem followed_lockingClause : Walk.Leads (Followed d p ts true) (Followed d p ts true) Walk.lockingClause := by
  have kept := followed_keptByRecords (d := d) (p := p) proper
  have rest : Walk.Keeps (Followed d p ts false) (Walk.repeatWhile do
      if (← Walk.kind).endsEverything then return false
      else
        discard Walk.advance
        return true) := by
    have skips : Walk.Keeps (Followed d p ts false) (discard Walk.advance) := kept.advance.discards
    exact Walk.Leads.repeatWhile ((kept.inStep.kind (b := false)).keeps.bind fun k => .ite .pure (skips.bind fun _ => .pure))
  have ended (isLocking : Bool) {s t : WalkState} {v : Unit} (followed : Followed d p ts true s)
      (begins : isLocking = true → s.cursor.kind.isIdentifier = true → s.cursor.kind.isWord "LOCK" = true)
      (run : (if isLocking then Walk.repeatWhile do
          if (← Walk.kind).endsEverything then return false
          else
            discard Walk.advance
            return true
        else pure ()) s = .ok v t) : Followed d p ts true t := by
    cases isLocking with
    | false =>
      obtain ⟨-, rfl⟩ := Walk.pure_eq_ok_iff.mp run
      exact followed
    | true => exact (rest s v t run (followed.closed (begins rfl))).opened
  intro s _ u run followed
  obtain ⟨isFor, _, ⟨⟩, run⟩ := Walk.bind_eq_ok_iff.mp run
  split at run
  · next isFor =>
    refine ended true followed (fun _ names => ?_) run
    rw [TokenKind.sameShape_keyword.mp isFor] at names
    cases names
  · obtain ⟨isLocking, t, looks, ending⟩ := Walk.bind_eq_ok_iff.mp run
    obtain ⟨rfl, isLock⟩ := Walk.atLock_stays looks
    exact ended isLocking followed (fun is _ => isLock is) ending

theorem followed_queryEnd (depth : Nat) :
    Walk.Leads (Followed d p ts false) (Followed d p ts true) (Walk.queryEnd depth true) := by
  have kept := followed_keptByRecords (d := d) (p := p) proper
  have nested := Company.Nested.all kept.settled.toSteady depth
  have ending : Walk.Leads (Followed d p ts false) (Followed d p ts true) (Walk.paginationEnd true) :=
    .bind (followed_pagination proper spaced) fun _ => followed_lockingClause proper
  refine .bind (kept.inStep.eatAny (b := false) _).keeps fun isSet => .ite ?_ ?_
  · refine .bind (kept.inStep.eatAny (b := false) _).keeps.discards fun _ => ?_
    exact fun s a t run holds => ((nested.query rfl).keeps s a t run holds).opened
  · refine .bind (kept.inStep.eat (b := false) _).keeps fun isOrder => .ite ?_ ending
    refine .bind (kept.inStep.expect (b := false) _).keeps.discards fun _ => ?_
    exact .bind (nested.expression TokenKind.respects_endsClause).keeps fun _ => ending

theorem followed_query : ∀ depth, Walk.Leads (Followed d p ts false) (Followed d p ts true) (Walk.queryWithin depth true)
  | 0 => fun s a t run => absurd run (Walk.failTooDeep_fails s a t)
  | depth + 1 => by
    have kept := followed_keptByRecords (d := d) (p := p) proper
    have nested := Company.Nested.all kept.settled.toSteady depth
    -- the parenthesis behind an inner query is no name
    have closes : Walk.Leads (Followed d p ts true) (Followed d p ts false) (discard (Walk.expect (.symbol .rightParen))) := by
      intro s _ t run followed
      refine (kept.inStep.expect (b := false) _).keeps.discards s _ t run (followed.closed fun names => ?_)
      obtain ⟨x, run, -⟩ := Walk.map_eq_ok_iff.mp run
      obtain ⟨found, _, ⟨⟩, run⟩ := Walk.bind_eq_ok_iff.mp run
      split at run
      · next isClosing =>
        rw [TokenKind.sameShape_symbol.mp isClosing] at names
        cases names
      · cases run
    rw [Walk.queryWithin]
    refine .bind (kept.inStep.eat (b := false) _).keeps fun isGroup => .ite ?_ ?_
    · exact .bind (followed_query depth) fun _ => .bind closes fun _ => followed_queryEnd proper spaced depth
    · exact .bind (nested.select true).keeps fun _ => followed_queryEnd proper spaced depth

theorem followed_orderAndLimit : Walk.Leads (Followed d p ts false) (Followed d p ts true) Walk.orderAndLimit := by
  have kept := followed_keptByRecords (d := d) (p := p) proper
  have limited : Walk.Leads (Followed d p ts false) (Followed d p ts true)
      (do if ← Walk.check (.keyword .limit) then Walk.limitClause true) :=
    .bind (kept.inStep.check (b := false) _).keeps fun _ =>
      .ite (followed_limitClause proper spaced true) (.pure fun _ => Followed.opened)
  refine .bind (kept.inStep.eat (b := false) _).keeps fun isOrder => .ite ?_ limited
  refine .bind (kept.inStep.expect (b := false) _).keeps.discards fun _ => ?_
  exact .bind (kept.settled.expression (b := false) TokenKind.respects_endsClause).keeps fun _ => limited

theorem followed_updateStatement : Walk.Leads (Followed d p ts false) (Followed d p ts true) Walk.updateStatement := by
  have kept := followed_keptByRecords (d := d) (p := p) proper
  have settled := kept.settled
  have tables := settled.tableReferences.keeps
  have clause := (settled.expression (b := false) TokenKind.respects_endsClause).keeps
  have eats (k : TokenKind) := (settled.eat (b := false) k).keeps
  refine .bind (settled.expect (b := false) _).keeps.discards fun _ => .bind (settled.skipAll (b := false) _).keeps fun _ => ?_
  refine .bind (settled.check (b := false) _).keeps fun isTop => .perhaps (settled.readsTop false).keeps ?_
  refine .bind tables fun _ => .bind (settled.setClause (b := false)).keeps fun _ => ?_
  refine .bind (eats _) fun _ => .perhaps clause (.bind (eats _) fun _ => .perhaps tables ?_)
  exact .bind (settled.whereClause (b := false)).keeps fun _ => followed_orderAndLimit proper spaced

theorem followed_deleteStatement : Walk.Leads (Followed d p ts false) (Followed d p ts true) Walk.deleteStatement := by
  have kept := followed_keptByRecords (d := d) (p := p) proper
  have settled := kept.settled
  have tables := settled.tableReferences.keeps
  have clause := (settled.expression (b := false) TokenKind.respects_endsClause).keeps
  have eats (k : TokenKind) := (settled.eat (b := false) k).keeps
  have ending : Walk.Leads (Followed d p ts false) (Followed d p ts true) Walk.deleteEnd :=
    .bind (eats _) fun _ => .perhaps clause (.bind (eats _) fun _ => .perhaps tables
      (.bind (settled.whereClause (b := false)).keeps fun _ => followed_orderAndLimit proper spaced))
  have sources : Walk.Leads (Followed d p ts false) (Followed d p ts true) Walk.deleteSources := by
    refine .bind (eats _) fun _ => .ite (.bind tables fun _ => ending) (.bind kept.deleteTargets fun targets => ?_)
    have records : Walk.Keeps (Followed d p ts false) (Walk.record (targets.foldl Walk.addTarget)) :=
      .records (kept.addTargets targets)
    exact .bind (eats _) fun _ => .perhaps tables (.bind records fun _ => ending)
  refine .bind (settled.expect (b := false) _).keeps.discards fun _ => .bind (settled.skipAll (b := false) _).keeps fun _ => ?_
  exact .bind (settled.check (b := false) _).keeps fun isTop => .perhaps (settled.readsTop false).keeps sources

theorem followed_wholeStatement (kind : StatementKind) :
    Walk.Leads (Followed d p ts false) (Followed d p ts false) (Walk.wholeStatement kind) := by
  have kept := followed_keptByRecords (d := d) (p := p) proper
  have settled := kept.settled
  have opens {m : Walk Unit} (keeps : Walk.Keeps (Followed d p ts false) m) :
      Walk.Leads (Followed d p ts false) (Followed d p ts true) m := fun s a t run holds => (keeps s a t run holds).opened
  have statement : Walk.Leads (Followed d p ts false) (Followed d p ts true) (Walk.statementOf kind) := by
    cases kind with
    | select => exact .bind (m := Walk.depth) (fun _ _ _ run holds => by cases run; exact holds) (followed_query proper spaced)
    | insert =>
      exact opens (settled.insertStatement (b := false) (Company.keeping_keyPoints fun _ _ _ =>
        .records fun s followed => followed.record fun _ _ member =>
          (List.mem_append.mp member).resolve_right fun new => by cases List.mem_singleton.mp new)).keeps
    | update => exact followed_updateStatement proper spaced
    | delete => exact followed_deleteStatement proper spaced
    | definition => exact opens (settled.definitionStatement (b := false)).keeps
  intro s _ u run holds
  obtain ⟨_, s₁, first, run⟩ := Walk.bind_eq_ok_iff.mp run
  obtain ⟨_, s₂, ends, run⟩ := Walk.bind_eq_ok_iff.mp run
  have followed₁ := statement s () s₁ first holds
  obtain ⟨found, ends, -⟩ := Walk.map_eq_ok_iff.mp ends
  have followed₂ : Followed d p ts true s₂ := by
    obtain ⟨isEnd, _, ⟨⟩, eats⟩ := Walk.bind_eq_ok_iff.mp ends
    split at eats
    · next isSemicolon =>
      have followed := followed₁.closed fun names => by
        rw [TokenKind.sameShape_symbol.mp isSemicolon] at names
        cases names
      exact ((kept.inStep.eat (b := false) _).keeps s₁ found s₂ ends followed).opened
    · obtain ⟨-, rfl⟩ := Walk.pure_eq_ok_iff.mp eats
      exact followed₁
  obtain ⟨atEnd, _, ⟨⟩, run⟩ := Walk.bind_eq_ok_iff.mp run
  split at run
  · cases run
  · next isAtEnd =>
    obtain ⟨-, rfl⟩ := Walk.pure_eq_ok_iff.mp run
    refine followed₂.closed fun names => ?_
    have kind : s₂.cursor.kind = .endOfInput := by simpa [Cursor.isAtEnd] using isAtEnd
    rw [kind] at names
    cases names

end Walks

/-- Behind the offset of a statement stands no name, other than the word of a locking clause. -/
theorem lock_of_offset {sql : String} {stmt : Statement} (parsed : parse d sql = .ok stmt) {e : Place}
    (reads : Reads d .start sql.toList ts e) {span : Span} {i : Int64} (member : .offset span i ∈ stmt.points) {t v : Token}
    (adjacent : Adjacent ts t v) (here : t.span = span) (names : v.kind.isIdentifier = true) :
    v.kind.isWord "LOCK" = true := by
  obtain ⟨kind, p, us, n, s, again, -, run, rfl⟩ := parse_eq_ok_iff.mp parsed
  obtain rfl : us = ts := again.eq_of_tokenize (tokenize_of_reads reads)
  have start : Followed d p us false ⟨.along d p 0 us, .ofKind kind⟩ := ⟨⟨[], us, rfl, rfl⟩, nofun⟩
  have followed := followed_wholeStatement reads.proper (laid_of_reads reads).spaced kind _ _ _ run start
  have recorded : .offset span i ∈ s.points := by
    rcases List.mem_append.mp (Statement.mem_sortPoints.mp member) with old | owner
    · exact old
    · obtain ⟨_, -, same⟩ := List.mem_map.mp owner
      cases same
  exact (followed.offsets span i recorded t v adjacent here names).resolve_right fun never => Bool.false_ne_true never.1

end SqlSharding.Sql
