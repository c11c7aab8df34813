import SqlSharding.Proofs.QualifiersRead
import SqlSharding.Proofs.Rereading

/-!
# Qualifiers that are rewritten

A qualifier that a statement reads is the place of a table if its name is that of a table of the statement and no alias that the
statement knows.
-/

namespace SqlSharding.Sql

/-! ## Complete statements -/

variable {d : Dialect} {sql : String} {stmt : Statement} {ts front rest : List Token} {e : Place} {q : Token}

/-- The qualifiers of a statement are accounted for. -/
theorem accounted_of_parse (parsed : parse d sql = .ok stmt) (tokens : tokenize d sql = .ok (ts ++ [Token.endAt e]))
    (kind : stmt.kind ≠ .definition) : Spaced ts ∧ ∃ st n, Accounted ts ts [] st ∧ stmt = st.finish n := by
  obtain ⟨k, p, us, n, s, reads, -, run, rfl⟩ := parse_eq_ok_iff.mp parsed
  obtain rfl : us = ts := reads.eq_of_tokenize tokens
  have other : k ≠ .definition := fun same => kind ((kind_of_wholeStatement run).trans same)
  obtain ⟨before, left, whole, poised, accounted⟩ := knowsQualifiers_wholeStatement reads.proper other _ () _ run ⟨rfl, rfl⟩
  have properLeft : Proper left := reads.proper.rest whole
  obtain rfl : left = [] := Cursor.along_injective properLeft nofun (show Cursor.along d p n [] = _ from poised).symm
  rw [List.append_nil] at whole
  exact ⟨(laid_of_reads reads).spaced, s, n, whole ▸ accounted, rfl⟩

/-- A name before a dot is the place of a table only if it is the name of a table and no alias that is known. -/
theorem owner_of_point (parsed : parse d sql = .ok stmt) (tokens : tokenize d sql = .ok (ts ++ [Token.endAt e]))
    (kind : stmt.kind ≠ .definition) (split : ts = front ++ q :: rest) (dotted : BeginsWith [.symbol .dot] rest)
    (member : .ofTable (.ofToken q) ∈ stmt.points) :
    stmt.tables.containsName (Identifier.ofToken q).name = true ∧ stmt.tables.containsAlias (Identifier.ofToken q).name = false := by
  obtain ⟨spaced, st, n, accounted, rfl⟩ := accounted_of_parse parsed tokens kind
  rcases Statement.ofTable_mem_finish.mp member with recorded | ⟨-, noAlias, isTable⟩
  · obtain ⟨front', t, rest', split', same, ends⟩ := accounted.tables _ recorded
    have begins : q.span.start = t.span.start := by rw [← Identifier.span_ofToken, same, Identifier.span_ofToken]
    obtain rfl := spaced.eq_of_start (split ▸ by simp) (split' ▸ by simp) begins
    obtain ⟨-, rfl⟩ := spaced.eq_of_split split split'
    exact absurd dotted ends
  · exact ⟨isTable, noAlias⟩

/-- The alias of a second occurrence of a table is not known, so that a qualifier with its name is taken for a table. -/
example : (parse .mysql "SELECT b.x FROM a m, a b WHERE b.x IN (SELECT x FROM b)").map (·.tables) =
    .ok ⟨[⟨"a", some "m"⟩, ⟨"b", none⟩]⟩ := by
  decide +kernel

/-- A qualifier that is neither passed over nor a schema is the place of a table if it is the name of one and no alias that is known. -/
theorem point_iff_owner (parsed : parse d sql = .ok stmt) (tokens : tokenize d sql = .ok (ts ++ [Token.endAt e]))
    (kind : stmt.kind ≠ .definition) (split : ts = front ++ q :: rest) (qualifies : Qualifies q rest) (isRead : ¬ Overlooked q front)
    (noSchema : ∀ dot t more, rest = dot :: t :: more → .ofTable (.ofToken t) ∉ stmt.points) :
    .ofTable (.ofToken q) ∈ stmt.points ↔
      stmt.tables.containsName (Identifier.ofToken q).name = true ∧ stmt.tables.containsAlias (Identifier.ofToken q).name = false := by
  refine ⟨owner_of_point parsed tokens kind split qualifies.beginsWith, fun ⟨isTable, noAlias⟩ => ?_⟩
  obtain ⟨-, st, n, accounted, rfl⟩ := accounted_of_parse parsed tokens kind
  have found := accounted.qualifiers front q rest split (by rwa [List.append_nil])
  rw [List.append_nil] at found
  cases found with
  | recorded member => exact Statement.ofTable_mem_finish.mpr (.inr ⟨member, noAlias, isTable⟩)
  | schema isNext member => exact absurd (Statement.ofTable_mem_finish.mpr (.inl member)) (noSchema _ _ _ isNext)
  | overlooked isOver => exact absurd isOver isRead

/-- A qualifier in a locking clause is not recorded, so it stays as it is. -/
example : (draft? .generic "SELECT t.a FROM t FOR UPDATE OF t.a").map (fun x => (x.1.points, x.1.qualifiers)) =
    some ([.table ⟨16, 17⟩ "t" none], [⟨"t", ⟨7, 8⟩, none⟩]) := by
  decide +kernel

end SqlSharding.Sql
