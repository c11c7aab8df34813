import SqlSharding.Proofs.Clauses
import SqlSharding.Proofs.Runs

/-!
# Names of tables

A statement lists each of its tables once, whatever the letter case of its occurrences, in the order of their first ones.
-/

namespace SqlSharding

namespace Text

theorem sameName_iff_lower {a b : String} : sameName a b = true ↔ lower a = lower b := decide_eq_true_iff

theorem sameName_refl (a : String) : sameName a a = true := sameName_iff_lower.mpr rfl

theorem sameName_comm (a b : String) : sameName a b = sameName b a := by
  rw [Bool.eq_iff_iff, sameName_iff_lower, sameName_iff_lower, eq_comm]

theorem sameName_trans {a b c : String} (first : sameName a b = true) (second : sameName b c = true) : sameName a c = true :=
  sameName_iff_lower.mpr ((sameName_iff_lower.mp first).trans (sameName_iff_lower.mp second))

end Text

namespace Sql

/-- Names of which no two are the same. -/
def Distinct (names : List String) : Prop := names.Pairwise fun a b => Text.sameName a b = false

/-- Tables of one name have the same names. -/
theorem TableRef.hasName_eq {t known : TableRef} (same : known.hasName t.name = true) (name : String) :
    t.hasName name = known.hasName name := by
  rw [Bool.eq_iff_iff]
  exact ⟨Text.sameName_trans same, Text.sameName_trans (Text.sameName_comm .. ▸ same)⟩

namespace Tables

/-- A further occurrence of a table leaves the names as they are, or it is the first one and its name becomes the last. -/
theorem names_insert (t : TableRef) (known : List TableRef) :
    (insert t known).map (·.name) = known.map (·.name) ∨
      (insert t known).map (·.name) = known.map (·.name) ++ [t.name] ∧ ∀ x ∈ known, x.hasName t.name = false := by
  induction known with
  | nil => exact .inr ⟨rfl, nofun⟩
  | cons first known ih =>
    rw [insert]
    split
    · exact .inl rfl
    · next other =>
      rcases ih with same | ⟨added, new⟩
      · exact .inl (congrArg (first.name :: ·) same)
      · refine .inr ⟨congrArg (first.name :: ·) added, fun x member => ?_⟩
        rcases List.mem_cons.mp member with rfl | later
        · exact Bool.eq_false_iff.mpr other
        · exact new x later

theorem distinct_add {ts : Tables} (distinct : Distinct ts.names) (t : TableRef) : Distinct (ts.add t).names := by
  rcases names_insert t ts.entries with same | ⟨added, new⟩
  · show Distinct ((insert t ts.entries).map (·.name))
    rw [same]
    exact distinct
  · show Distinct ((insert t ts.entries).map (·.name))
    rw [added]
    refine List.pairwise_append.mpr ⟨distinct, List.pairwise_singleton _ _, fun a isKnown b isNew => ?_⟩
    obtain ⟨x, member, rfl⟩ := List.mem_map.mp isKnown
    rw [List.mem_singleton.mp isNew]
    exact new x member

end Tables

variable {d : Dialect} {P : StatementKind → Tables → Prop}

/-- A property of the kind and the tables that further occurrences of tables keep is kept by whole walks. -/
theorem Walk.keptByRecords_of_tables (adds : ∀ kind ts t, P kind ts → P kind (ts.add t)) :
    KeptByRecords (fun s => P s.statement.kind s.statement.tables) fun _ => True where
  records_false := trivial
  advance s _ u run holds := by
    obtain ⟨next, -, -, rfl⟩ := advance_eq_ok_iff.mp run
    exact holds
  conditions _ _ := id
  rows _ _ _ := id
  qualifier _ _ := id
  table s x aliasName := adds s.statement.kind s.statement.tables ⟨x.name, aliasName⟩
  paginate s rowCount offset rewritable _ holds := by
    show P (s.statement.paginate rowCount offset rewritable).kind (s.statement.paginate rowCount offset rewritable).tables
    rw [Statement.paginate_eq]
    exact holds

/-- What holds of no tables and is kept by further occurrences holds of the tables of a statement. -/
theorem tables_of_wholeStatement (adds : ∀ kind ts t, P kind ts → P kind (ts.add t)) {kind : StatementKind} {s u : WalkState}
    (run : Walk.wholeStatement kind s = .ok () u) (holds : P s.statement.kind s.statement.tables) :
    P u.statement.kind u.statement.tables :=
  ((Walk.keptByRecords_of_tables adds).settled.wholeStatement (b := false)
    (Company.keeping_keyPoints fun _ _ _ => .records fun _ => id) trivial kind).keeps _ _ _ run holds

/-- The kind of a statement is the one that its first token tells. -/
theorem kind_of_wholeStatement {kind : StatementKind} {s u : WalkState} (run : Walk.wholeStatement kind s = .ok () u) :
    u.statement.kind = s.statement.kind :=
  tables_of_wholeStatement (P := fun k _ => k = s.statement.kind) (fun _ _ _ => id) run rfl

theorem distinct_of_parse {sql : String} {stmt : Statement} (parsed : parse d sql = .ok stmt) : Distinct stmt.tables.names := by
  obtain ⟨kind, p, ts, n, s, -, -, run, rfl⟩ := parse_eq_ok_iff.mp parsed
  exact tables_of_wholeStatement (P := fun _ ts => Distinct ts.names) (fun _ _ t distinct => Tables.distinct_add distinct t) run
    .nil

end Sql

end SqlSharding
