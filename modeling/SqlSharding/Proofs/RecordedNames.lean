import SqlSharding.Proofs.Clauses
import SqlSharding.Proofs.Points

/-!
# Recorded names

A statement records names in two ways, as the places of its tables and as qualifiers. This module says what may be known of all
of them while a walk is under way, and of a name that was passed without being recorded.
-/

namespace SqlSharding.Sql

/-- A statement with the tables and the names of another one. -/
structure SameNames (st st' : Statement) : Prop where
  kind : st'.kind = st.kind
  tables : st'.tables = st.tables
  qualifiers : st'.qualifiers = st.qualifiers
  points : ∀ x, .ofTable x ∈ st'.points ↔ .ofTable x ∈ st.points

namespace SameNames

theorem refl (st : Statement) : SameNames st st := ⟨rfl, rfl, rfl, fun _ => Iff.rfl⟩

theorem conditions (cs : Conditions) (st : Statement) : SameNames st { st with conditions := cs } :=
  ⟨rfl, rfl, rfl, fun _ => Iff.rfl⟩

theorem rows (columns : List String) (n : Nat) (st : Statement) :
    SameNames st { st with insertColumns := columns, insertRows := n } := ⟨rfl, rfl, rfl, fun _ => Iff.rfl⟩

theorem paginate (rowCount offset : Option PlacedBound) (rewritable : Bool) (st : Statement) :
    SameNames st (st.paginate rowCount offset rewritable) := by
  rw [Statement.paginate_eq]
  refine ⟨rfl, rfl, rfl, fun x => ?_⟩
  have noBound (point : Span → Int64 → RewritePoint) (other : ∀ span n, point span n ≠ .ofTable x) (b : Option PlacedBound) :
      .ofTable x ∉ boundPoints point b := by
    intro member
    match b with
    | some ⟨.literal n, span⟩ => exact other span n (List.mem_singleton.mp member).symm
    | some ⟨.placeholder _, _⟩ => cases member
    | none => cases member
  have noOffset := noBound .offset nofun offset
  have noRowCount := noBound .rowCount nofun rowCount
  simp only [List.mem_append, noOffset, noRowCount, or_false]

theorem key (columnsEnd valuesEnd parameterIndex : Nat) (st : Statement) :
    SameNames st (st.addPoint (.generatedKey columnsEnd valuesEnd parameterIndex)) := by
  refine ⟨rfl, rfl, rfl, fun x => ?_⟩
  simp [Statement.addPoint, RewritePoint.ofTable]

end SameNames

/-- Every name that is recorded meets a condition. -/
structure EachName (Q : Identifier → Prop) (st : Statement) : Prop where
  points : ∀ x, .ofTable x ∈ st.points → Q x
  qualifiers : ∀ x ∈ st.qualifiers, Q x

/-- No name is recorded at a place. -/
abbrev Unrecorded (n : Nat) : Statement → Prop := EachName fun x => x.span.start ≠ n

/-- The names that are recorded are those of tokens behind. -/
abbrev NamesBehind (ts rest : List Token) : Statement → Prop := EachName (NameBehind ts rest)

/-- A token that was passed and is not recorded as a name. -/
structure PassedOver (ts : List Token) (t : Token) (rest : List Token) (st : Statement) : Prop where
  behind : Behind ts rest t
  unrecorded : Unrecorded t.span.start st

section Recording

variable {ts rest later : List Token} {st st' : Statement} {t : Token} {x : Identifier} {n : Nat}

theorem RewritePoint.ofTable_inj {x y : Identifier} (same : ofTable x = ofTable y) : x = y := by
  obtain ⟨name, span, quote⟩ := x
  obtain ⟨name', span', quote'⟩ := y
  injection same with sameSpan sameName sameQuote
  obtain rfl : span = span' := sameSpan
  obtain rfl : name = name' := sameName
  obtain rfl : quote = quote' := sameQuote
  rfl

theorem Statement.mem_addTable {y : Identifier} {aliasName : Option String} :
    .ofTable y ∈ (st.addTable x aliasName).points ↔ .ofTable y ∈ st.points ∨ y = x := by
  have single : .ofTable y ∈ [RewritePoint.ofTable x] ↔ y = x :=
    List.mem_singleton.trans ⟨RewritePoint.ofTable_inj, congrArg _⟩
  exact List.mem_append.trans (or_congr Iff.rfl single)

namespace EachName

variable {Q Q' : Identifier → Prop} (each : EachName Q st)

include each

theorem imp (weaker : ∀ x, Q x → Q' x) : EachName Q' st where
  points x member := weaker x (each.points x member)
  qualifiers x member := weaker x (each.qualifiers x member)

theorem of_names (names : SameNames st st') : EachName Q st' where
  points x member := each.points x ((names.points x).mp member)
  qualifiers x member := each.qualifiers x (names.qualifiers ▸ member)

theorem addQualifier (holds : Q x) : EachName Q (st.addQualifier x) where
  points := each.points
  qualifiers y member := by
    rcases List.mem_append.mp member with old | new
    · exact each.qualifiers y old
    · rwa [List.mem_singleton.mp new]

theorem addTable (holds : Q x) (aliasName : Option String) : EachName Q (st.addTable x aliasName) where
  points y member := by
    rcases Statement.mem_addTable.mp member with old | rfl
    · exact each.points y old
    · exact holds
  qualifiers := each.qualifiers

theorem addTargets {targets : List Identifier} (holds : ∀ x ∈ targets, Q x) :
    EachName Q (targets.foldl Walk.addTarget st) := by
  induction targets generalizing st with
  | nil => exact each
  | cons x targets ih =>
    refine ih ?_ fun y member => holds y (List.mem_cons_of_mem x member)
    rw [Walk.addTarget]
    split
    · exact each.addTable (holds x List.mem_cons_self) none
    · exact each

end EachName

/-- Nothing is recorded at a token ahead. -/
theorem unrecorded_ahead (spaced : Spaced ts) (behind : NamesBehind ts rest st) (ahead : t ∈ rest) :
    Unrecorded t.span.start st :=
  behind.imp fun _ named => named.start_ne spaced ahead

/-- What depends on the names only is tracked if it stays when names are recorded. -/
theorem Trackable.of_names {J : List Token → Statement → Prop}
    (mono : ∀ {rest later st}, later <:+ rest → J rest st → J later st)
    (names : ∀ {rest st st'}, SameNames st st' → J rest st → J rest st')
    (name : ∀ {rest later st x}, NameBetween ts rest later x → J rest st → ∀ {last st'}, last <:+ later → J last st' →
      J last (st'.addQualifier x) ∧ ∀ aliasName, J last (st'.addTable x aliasName)) : Trackable ts J where
  mono := mono
  conditions cs := names (.conditions cs _)
  rows columns n := names (.rows columns n _)
  name := name
  paginate rewritable suffix _ holds := names (.paginate _ _ rewritable _) (mono suffix holds)
  key columnsEnd valuesEnd parameterIndex := names (.key columnsEnd valuesEnd parameterIndex _)

theorem trackable_namesBehind : Trackable ts (NamesBehind ts) :=
  .of_names (fun suffix behind => behind.imp fun _ named => named.mono suffix) (fun names behind => behind.of_names names)
    fun named _ _ _ suffix behind => by
      have passed := named.behind.mono suffix
      exact ⟨behind.addQualifier passed, behind.addTable passed⟩

/-- A token that was passed without being recorded stays so. -/
theorem trackable_passedOver (spaced : Spaced ts) (t : Token) : Trackable ts (PassedOver ts t) :=
  .of_names (fun suffix skipped => ⟨skipped.behind.mono suffix, skipped.unrecorded⟩)
    (fun names skipped => ⟨skipped.behind, skipped.unrecorded.of_names names⟩)
    fun named earlier _ _ suffix skipped => by
      obtain ⟨u, ahead, -, -, rfl⟩ := named
      have apart : (Identifier.ofToken u).span.start ≠ t.span.start := by
        rw [Identifier.span_ofToken]
        exact (earlier.behind.start_ne spaced ahead).symm
      exact ⟨⟨skipped.behind, skipped.unrecorded.addQualifier apart⟩,
        fun aliasName => ⟨skipped.behind, skipped.unrecorded.addTable apart aliasName⟩⟩

end Recording

end SqlSharding.Sql
