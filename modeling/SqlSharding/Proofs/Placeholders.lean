import SqlSharding.Proofs.Edits
import SqlSharding.Proofs.GatheredStatements

/-!
# Placeholders of a statement

A statement numbers its placeholders as they stand in its text. Its conditions and its pagination refer to placeholders by
these numbers, to none of them twice, and the place of a generated key tells how many of them stand before it.
-/

namespace SqlSharding.Sql

/-! ## Longer texts -/

section More

variable {ts : List Token} (more : List Token)

theorem RowItem.append {before item after : List Token} {v : Operand} (isItem : RowItem before item after v) :
    RowItem before item (after ++ more) v where
  spelled := isItem.spelled
  opens := isItem.opens
  closes := by
    obtain ⟨t, isFirst, closes⟩ := isItem.closes
    exact ⟨t, by rw [List.head?_append, isFirst]; rfl, closes⟩

theorem Condition.SpelledIn.append {c : Condition} (spelled : c.SpelledIn ts) : c.SpelledIn (ts ++ more) := by
  obtain ⟨before, taken, after, whole, isSpelled⟩ := spelled
  refine ⟨before, taken, after ++ more, by simp [whole], isSpelled.imp_right ?_⟩
  rintro ⟨column, v, same, isItem⟩
  exact ⟨column, v, same, isItem.append more⟩

theorem Limit.SpelledIn.append {l : Limit} (spelled : l.SpelledIn ts) : l.SpelledIn (ts ++ more) := by
  obtain ⟨before, taken, after, rowCount, offset, whole, clause⟩ := spelled
  exact ⟨before, taken, after ++ more, rowCount, offset, by simp [whole], clause⟩

end More

/-! ## Completed conditions -/

/-- The qualifier of a column is not part of its spelling, only its own name is. -/
theorem Condition.Spelled.qualified {n : Nat} {ts : List Token} {c : Condition} (spelled : c.Spelled n ts)
    (table : Option String) : Condition.Spelled n ts { c with column := { c.column with table } } := by
  have column {x : Column} {name : List Token} (spelled : x.Spelled name) : Column.Spelled name { x with table } :=
    ⟨spelled.name, spelled.last⟩
  cases spelled with
  | equal name sign value => exact .equal (column name) sign value
  | isIn name word list => exact .isIn (column name) word list
  | between name word range => exact .between (column name) word range

theorem Condition.SpelledIn.resolved {ts : List Token} {c : Condition} (spelled : c.SpelledIn ts) (resolve : String → String) :
    Condition.SpelledIn ts { c with column := { c.column with table := c.column.table.map resolve } } := by
  obtain ⟨before, taken, after, whole, isSpelled⟩ := spelled
  refine ⟨before, taken, after, whole, isSpelled.imp (fun isSpelled => isSpelled.qualified _) ?_⟩
  rintro ⟨column, v, rfl, isItem⟩
  exact ⟨column, v, rfl, isItem⟩

theorem Statement.finish_indices (s : Statement) (n : Nat) : (s.finish n).indices = s.indices := by
  have entries : ((s.finish n).conditions.entries.flatMap Condition.indices) = s.conditions.entries.flatMap Condition.indices := by
    simp only [finish, Conditions.resolveOwners, List.flatMap_map]
    rfl
  rw [indices, entries]
  rfl

/-- Completing a statement adds no points but those of tables. -/
theorem Statement.mem_finish {s : Statement} {n : Nat} {q : RewritePoint} (member : q ∈ (s.finish n).points)
    (other : ∀ x, q ≠ .ofTable x) : q ∈ s.points := by
  rcases List.mem_append.mp (mem_sortPoints.mp member) with old | owner
  · exact old
  · obtain ⟨x, -, rfl⟩ := List.mem_map.mp owner
    exact absurd rfl (other x)

/-- The end of a text begins with no placeholder. -/
theorem placeholders_endAt (ts : List Token) (p : Place) : placeholders (ts ++ [Token.endAt p]) = placeholders ts := by
  rw [placeholders_append, placeholders_other (t := Token.endAt p) TokenKind.noConfusion, Nat.add_zero]

theorem placeholders_filter_endAt (ts : List Token) (p : Place) (test : Token → Bool) :
    placeholders ((ts ++ [Token.endAt p]).filter test) = placeholders (ts.filter test) := by
  have noQuestion : placeholders ([Token.endAt p].filter test) = 0 := by
    rw [placeholders, List.countP_eq_zero]
    intro t member
    rw [List.mem_singleton.mp (List.mem_filter.mp member).1]
    simp [Token.endAt]
  rw [List.filter_append, placeholders_append, noQuestion, Nat.add_zero]

/-- What a statement holds before it is completed has been gathered over its whole text. -/
theorem gathered_of_parse {d : Dialect} {sql : String} {stmt : Statement} (parsed : parse d sql = .ok stmt) :
    ∃ kind p ts s, Reads d .start sql.toList ts p ∧ Gathered ts true 0 (placeholders ts) [] (.ofKind kind) s ∧
      stmt = s.finish (placeholders ts) := by
  obtain ⟨kind, p, ts, n, s, reads, -, run, rfl⟩ := parse_eq_ok_iff.mp parsed
  have proper := reads.proper
  have inOrder := (laid_of_reads reads).spaced.inOrder
  have gathering := Walk.Gathering.wholeStatement (d := d) (p := p) proper inOrder kind
  obtain ⟨taken, later, split, ended, gathered⟩ := gathering [] ts ⟨.along d p 0 ts, .ofKind kind⟩ () _ rfl rfl run
  have atEnd : Cursor.along d p n [] = .along d p (placeholders taken) later := ended
  have counted : n = placeholders taken := by
    have same := congrArg Cursor.parameterIndex atEnd
    rwa [Cursor.along_parameterIndex, Cursor.along_parameterIndex] at same
  obtain rfl : ts = taken := by
    rw [split, Cursor.along_injective (split ▸ proper).right (fun _ member => by cases member) atEnd.symm, List.append_nil]
  subst counted
  exact ⟨kind, p, ts, s, reads, gathered, rfl⟩

/-- The place of a generated key counts the placeholders before the end of its row. -/
theorem Gathered.slot_eq {kind : StatementKind} {ts : List Token} {s : Statement} {n columnsEnd valuesEnd slot : Nat}
    (gathered : Gathered ts true 0 (placeholders ts) [] (.ofKind kind) s)
    (member : .generatedKey columnsEnd valuesEnd slot ∈ (s.finish n).points) :
    slot = placeholders (ts.filter fun t => t.span.start < valuesEnd) := by
  rcases gathered.points _ (Statement.mem_finish member fun _ => RewritePoint.noConfusion) with old | counted
  · cases old
  · exact counted

/-- The number of placeholders of a statement is that of its text. Every condition and the pagination are spelled by
tokens of the text that give each placeholder the number of those before it, no two references are to one placeholder, and
the place of a generated key counts the placeholders that begin before the end of its row. -/
theorem placeholders_of_parse {d : Dialect} {sql : String} {stmt : Statement} (parsed : parse d sql = .ok stmt) :
    ∃ ts, tokenize d sql = .ok ts ∧ stmt.parameterCount = placeholders ts ∧
      (∀ c ∈ stmt.conditions.entries, c.SpelledIn ts) ∧ (∀ l, stmt.limit = some l → l.SpelledIn ts) ∧
      stmt.indices.Nodup ∧ (∀ i ∈ stmt.indices, i < stmt.parameterCount) ∧
      ∀ columnsEnd valuesEnd i, .generatedKey columnsEnd valuesEnd i ∈ stmt.points →
        i = placeholders (ts.filter fun t => t.span.start < valuesEnd) := by
  obtain ⟨kind, p, ts, s, reads, gathered, rfl⟩ := gathered_of_parse parsed
  have indices : s.indices.Subperm (List.range' 0 (placeholders ts)) := by
    have all := gathered.indices
    rwa [List.append_nil] at all
  refine ⟨ts ++ [Token.endAt p], ?_, ?_, fun c member => ?_, fun l isLimit => ?_, ?_, fun i member => ?_, ?_⟩
  · exact tokenize_of_reads reads
  · exact (placeholders_endAt ts p).symm
  · obtain ⟨c', isEntry, rfl⟩ := List.mem_map.mp member
    rcases gathered.spelled c' isEntry with old | spelled
    · cases old
    · exact (spelled.resolved _).append _
  · rcases gathered.limit with none | ⟨-, paged⟩
    · rw [show s.limit = some l from isLimit] at none
      cases none
    · exact (paged.spelledIn isLimit).append _
  · obtain ⟨l, isPerm, sublist⟩ := indices
    rw [Statement.finish_indices]
    exact isPerm.nodup_iff.mp (sublist.nodup List.nodup_range')
  · rw [Statement.finish_indices] at member
    have := List.mem_range'_1.mp (indices.subset member)
    show i < placeholders ts
    omega
  · intro columnsEnd valuesEnd i member
    rw [placeholders_filter_endAt, gathered.slot_eq member]

theorem placeholders_of_parse_insert : ∃ stmt, parse .mysql "INSERT t (a) VALUES (?)" = .ok stmt ∧
    stmt.parameterCount = 1 ∧ stmt.indices = [0] ∧ ∃ ts, tokenize .mysql "INSERT t (a) VALUES (?)" = .ok ts ∧ stmt.parameterCount = placeholders ts ∧
      (∀ c ∈ stmt.conditions.entries, c.SpelledIn ts) ∧ (∀ l, stmt.limit = some l → l.SpelledIn ts) ∧
      stmt.indices.Nodup ∧ (∀ i ∈ stmt.indices, i < stmt.parameterCount) ∧
      ∀ columnsEnd valuesEnd i, .generatedKey columnsEnd valuesEnd i ∈ stmt.points →
        i = placeholders (ts.filter fun t => t.span.start < valuesEnd) := by
  have drafted : draft? .mysql "INSERT t (a) VALUES (?)" = some (⟨.insert, ⟨[⟨"t", none⟩]⟩,
      ⟨[⟨⟨none, "a"⟩, .equal, [.placeholder 0]⟩], true⟩, [.table ⟨7, 8⟩ "t" none, .generatedKey 11 22 1], 0, none, ["a"], 1,
      []⟩, 1) := by decide +kernel
  exact ⟨_, parse_of_draft drafted, rfl, rfl, placeholders_of_parse (parse_of_draft drafted)⟩

end SqlSharding.Sql
