import SqlSharding.Proofs.KeyBinding
import SqlSharding.Proofs.Offsets
import SqlSharding.Proofs.RenamedWalks

/-!
# Rewritten statements

A statement whose tables get their own names with a suffix, and whose bounds get new numbers, is a statement of the same kind with
as many placeholders and the renamed tables, in the same dialect.
-/

namespace SqlSharding

open Text

/-! ## New names -/

namespace Sql

variable {k : String}

/-- A suffix makes no difference to whether names are the same. -/
theorem sameName_suffixed (a b k : String) : Text.sameName (suffixed a k) (suffixed b k) = Text.sameName a b := by
  have split (name : String) : (lower (suffixed name k)).toList = (lower name).toList ++ (lower ("_" ++ k)).toList := by
    simp [suffixed, lower]
  rw [Bool.eq_iff_iff, sameName_iff_lower, sameName_iff_lower, ← String.toList_inj, ← String.toList_inj, split, split,
    List.append_left_inj]

/-- A name with a suffix is no word without digits. -/
theorem IsSuffix.other_word (suffix : IsSuffix k) (name : String) {word : String}
    (noDigit : word.toList.all (fun c => !c.isDigit) = true) : Text.sameName (suffixed name k) word = false := by
  rw [Bool.eq_false_iff, ne_eq, Text.sameName_comm]
  intro same
  obtain ⟨c, member, digit⟩ := suffix.exists_digit name
  have noDigits := all_of_sameLetters (p := fun c => !c.isDigit) (fun kin => by rw [kin.isDigit_eq]) (sameName_iff.mp same)
    (List.all_eq_true.mp noDigit) c member
  rw [digit] at noDigits
  cases noDigits

theorem Tables.containsName_iff {ts : Tables} {name : String} :
    ts.containsName name = true ↔ ∃ n ∈ ts.names, Text.sameName n name = true := by
  rw [containsName, List.any_eq_true, names]
  constructor
  · rintro ⟨e, member, same⟩
    exact ⟨e.name, List.mem_map_of_mem member, same⟩
  · rintro ⟨n, member, same⟩
    obtain ⟨e, isEntry, rfl⟩ := List.mem_map.mp member
    exact ⟨e, isEntry, same⟩

theorem Tables.containsName_insert (t : TableRef) (known : List TableRef) (name : String) :
    (insert t known).any (·.hasName name) = (known.any (·.hasName name) || t.hasName name) := by
  induction known with
  | nil => simp [insert]
  | cons first known ih =>
    rw [insert]
    split
    · next same =>
      have unchanged (a : Option String) : ({ first with aliasName := a } : TableRef).hasName name = first.hasName name := rfl
      rw [List.any_cons, List.any_cons, TableRef.hasName_eq same, unchanged]
      cases first.hasName name <;> simp
    · rw [List.any_cons, List.any_cons, ih, Bool.or_assoc]

/-! ## Tables of points -/

/-- Every table that is recorded with its place is one of the tables. -/
theorem Walk.pointsKnown_kept : KeptByRecords (fun s => ∀ x, .ofTable x ∈ s.statement.points →
    s.statement.tables.containsName x.name = true) fun _ => True where
  records_false := trivial
  advance s _ u run known := by
    obtain ⟨next, -, -, rfl⟩ := advance_eq_ok_iff.mp run
    exact known
  conditions _ _ := id
  rows _ _ _ := id
  qualifier _ _ := id
  table s x aliasName known y member := by
    show (Tables.insert ⟨x.name, aliasName⟩ s.statement.tables.entries).any (·.hasName y.name) = true
    rw [Tables.containsName_insert, Bool.or_eq_true]
    rcases Statement.mem_addTable.mp member with old | rfl
    · exact .inl (known y old)
    · exact .inr (Text.sameName_refl y.name)
  paginate s rowCount offset rewritable _ known y member := by
    have names := SameNames.paginate rowCount offset rewritable s.statement
    rw [names.tables]
    exact known y ((names.points y).mp member)

variable {d : Dialect} {sql : String}

/-- The places of tables are the recorded ones and those of the qualifiers that name tables and are no aliases. -/
theorem Statement.ofTable_mem_finish {st : Statement} {n : Nat} {x : Identifier} :
    .ofTable x ∈ (st.finish n).points ↔
      .ofTable x ∈ st.points ∨ x ∈ st.qualifiers ∧ st.tables.containsAlias x.name = false ∧ st.tables.containsName x.name = true := by
  have isOwner {y : Identifier} : y ∈ st.qualifiers.filter (fun q => !st.tables.containsAlias q.name && st.tables.containsName q.name) ↔
      y ∈ st.qualifiers ∧ st.tables.containsAlias y.name = false ∧ st.tables.containsName y.name = true := by
    simp
  refine mem_sortPoints.trans (List.mem_append.trans (or_congr Iff.rfl ⟨fun owner => ?_, fun holds => ?_⟩))
  · obtain ⟨y, chosen, same⟩ := List.mem_map.mp owner
    obtain rfl := RewritePoint.ofTable_inj same
    exact isOwner.mp chosen
  · exact List.mem_map_of_mem (isOwner.mpr holds)

theorem containsName_of_parse {stmt : Statement} (parsed : parse d sql = .ok stmt) {x : Identifier}
    (member : .ofTable x ∈ stmt.points) : stmt.tables.containsName x.name = true := by
  obtain ⟨kind, p, ts, n, s, -, -, run, rfl⟩ := parse_eq_ok_iff.mp parsed
  have known := (Walk.pointsKnown_kept.settled.wholeStatement (b := false)
    (Company.keeping_keyPoints fun columnsEnd valuesEnd n => ?_) trivial kind).keeps _ _ _ run nofun
  · rcases Statement.ofTable_mem_finish.mp member with recorded | ⟨-, -, isTable⟩
    · exact known x recorded
    · exact isTable
  · refine .records fun s known y member => ?_
    exact known y ((SameNames.key columnsEnd valuesEnd n s.statement).points y |>.mp member)

/-! ## Integers in a text -/

theorem numberLexeme_nonneg {cs : List Char} {i : Int64} {more : Nat} (read : numberLexeme cs = .token (.integer i) more) :
    0 ≤ i := by
  have isKind : ((hexNumber? cs).getD (decimalNumber cs)).1 = .integer i := (Lexeme.token.inj read).1
  have fitting {n : Nat} {x : Binary64} (same : (Text.int64? n).elim (.float x) TokenKind.integer = .integer i) : 0 ≤ i := by
    rw [Text.int64?] at same
    split at same
    · next fits =>
      cases same
      simp only [int64Bound, Bool.and_eq_true, decide_eq_true_eq] at fits
      rw [Int64.le_iff_toInt_le, Int64.toInt_zero, Int64.toInt_ofInt_of_le (by omega) (by omega)]
      omega
    · cases same
  cases found : hexNumber? cs with
  | none =>
    rw [found, Option.getD_none] at isKind
    unfold decimalNumber at isKind
    dsimp only at isKind
    split at isKind
    · exact fitting isKind
    · cases isKind
  | some number =>
    rw [found, Option.getD_some] at isKind
    unfold hexNumber? at found
    split at found
    · dsimp only at found
      split at found
      · simp only [Option.some.injEq] at found
        rw [← found] at isKind
        dsimp only at isKind
        exact fitting isKind
      · cases found
    · cases found

/-- An integer in a text has no sign. -/
theorem Spells.nonneg {source r : List Char} {i : Int64} (spells : Spells d source r (.integer i)) : 0 ≤ i := by
  obtain ⟨-, c, tail, rfl, front⟩ := spells
  exact numberLexeme_nonneg (readAs_of_lexeme (front 0))

theorem Written.spells {start : Nat} {cs : List Char} {ts : List Token} (written : Written d start cs ts) {t : Token}
    (member : t ∈ ts) : ∃ source r, Spells d source r t.kind := by
  induction written with
  | done => cases member
  | next blank source begins ends gap spells tail ih =>
    rcases List.mem_cons.mp member with rfl | later
    · exact ⟨source, _, spells⟩
    · exact ih later

/-- Alike tokens begin statements of the same kind. -/
theorem StatementKind.ofFirst?_alike {first first' : TokenKind} (alike : first.Alike first') :
    StatementKind.ofFirst? first = StatementKind.ofFirst? first' := by
  cases alike <;> rfl

/-- Tokens whose kinds are single kinds in the place of other tokens correspond to those. -/
theorem forall₂_of_kinds {P : Token → TokenKind → Prop} {f : Token → List TokenKind} {ts ts' : List Token}
    (single : ∀ t ∈ ts, ∃ k, f t = [k] ∧ P t k) (kinds : ts'.map (·.kind) = ts.flatMap f) :
    List.Forall₂ (fun t t' => P t t'.kind) ts ts' := by
  induction ts generalizing ts' with
  | nil =>
    obtain rfl := List.map_eq_nil_iff.mp kinds
    exact .nil
  | cons t ts ih =>
    obtain ⟨k, only, holds⟩ := single t List.mem_cons_self
    rw [List.flatMap_cons, only] at kinds
    obtain ⟨t', ts', rfl, rfl, kinds⟩ := List.map_eq_cons_iff.mp kinds
    have rest : ts'.map (·.kind) = ts.flatMap f := (List.cons.inj kinds).2
    exact .cons holds (ih (fun u member => single u (List.mem_cons_of_mem t member)) rest)

end Sql

namespace Rewrite

open Sql

/-! ## Targets with suffixes -/

/-- A stretch of a text is written in decimal. -/
def IsDecimal (sql : String) (span : Span) : Prop :=
  ∀ source, slice? span.start span.finish sql.toList = some source → ∀ c ∈ source, c.isDigit = true

/-- A bound in decimal notation can become any other number without a sign. -/
theorem fits_of_decimal {d : Dialect} {source : List Char} {i n : Int64} (decimal : ∀ c ∈ source, c.isDigit = true) (nonneg : 0 ≤ n) :
    Exchange.Fits d source (.integer i) ⟨(toString n.toInt).toList, [.integer n]⟩ := by
  intro r r' resembles spells zero
  obtain ⟨spells', resembles'⟩ := spells.decimal decimal nonneg resembles fun isZero => zero (by rw [isZero]; rfl)
  exact ⟨.last spells', resembles'⟩

namespace Target

/-- A target gives new numbers only to bounds in decimal notation, and only an offset may become zero. -/
structure WritesBounds (target : Target) (sql : String) (points : List RewritePoint) : Prop where
  rowCount : ∀ n ∈ target.rowCount, 1 ≤ n ∧ ∀ span i, .rowCount span i ∈ points → IsDecimal sql span
  offset : ∀ n ∈ target.offset, 0 ≤ n ∧ ∀ span i, .offset span i ∈ points → IsDecimal sql span

namespace WritesBounds

variable {target : Target} {sql : String} {points : List RewritePoint} {span : Span} {n : Int64}
  (writes : target.WritesBounds sql points) (isBound : target.IsBound points span n)

include writes isBound

theorem nonneg : 0 ≤ n := by
  obtain ⟨i, ⟨-, isNew⟩ | ⟨-, isNew⟩⟩ := isBound
  · exact (writes.offset n isNew).1
  · exact Int64.le_trans (by decide) (writes.rowCount n isNew).1

theorem isDecimal : IsDecimal sql span := by
  obtain ⟨i, ⟨member, isNew⟩ | ⟨member, isNew⟩⟩ := isBound
  · exact (writes.offset n isNew).2 span i member
  · exact (writes.rowCount n isNew).2 span i member

theorem isOffset (zero : n = 0) : ∃ i, .offset span i ∈ points := by
  obtain ⟨i, ⟨member, -⟩ | ⟨-, isNew⟩⟩ := isBound
  · exact ⟨i, member⟩
  · rw [zero] at isNew
    exact absurd (writes.rowCount 0 isNew).1 (by decide)

end WritesBounds

theorem physicalTable?_congr (target : Target) {a b : String} (same : sameName a b = true) :
    target.physicalTable? a = target.physicalTable? b := by
  have alike (name : String) : sameName name a = sameName name b := by
    rw [Bool.eq_iff_iff]
    exact ⟨(sameName_trans · same), (sameName_trans · (sameName_comm a b ▸ same))⟩
  simp only [physicalTable?, alike]

/-- Whether a statement has a place for a key can be told from its points. -/
theorem addsNoKey_iff {target : Target} {stmt : Statement} :
    target.AddsNoKey stmt.points ↔ stmt.generatedKeyPoint? = none ∨ target.generatedKey = none := by
  rw [AddsNoKey, or_comm, Statement.generatedKeyPoint?, List.findSome?_eq_none_iff]
  refine or_congr (forall₂_congr fun q _ => ?_) Iff.rfl
  cases q <;> simp [RewritePoint.isKey]

/-- A target that puts a suffix behind the names of the tables of a statement and gives new numbers to bounds in decimal notation.
No new name is an alias of the statement, and no key is added. -/
structure Renames (target : Target) (k : String) (sql : String) (stmt : Statement) : Prop where
  suffix : IsSuffix k
  tables : ∀ n ∈ stmt.tables.names, target.physicalTable? n = some (suffixed n k)
  fresh : ∀ n ∈ stmt.tables.names, stmt.tables.containsAlias (suffixed n k) = false
  rowCount : ∀ n ∈ target.rowCount, 1 ≤ n ∧ ∀ span i, .rowCount span i ∈ stmt.points → IsDecimal sql span
  offset : ∀ n ∈ target.offset, 0 ≤ n ∧ ∀ span i, .offset span i ∈ stmt.points → IsDecimal sql span
  noKey : stmt.generatedKeyPoint? = none ∨ target.generatedKey = none

/-- The new names that a target gives to the tables of a statement. -/
def newNames (target : Target) (stmt : Statement) : Renaming where
  points := stmt.points
  tables := stmt.tables
  rename name := (target.physicalTable? name).getD name

namespace Renames

variable {target : Target} {k sql : String} {stmt : Statement} {d : Dialect} (renames : target.Renames k sql stmt)

include renames

theorem addsNoKey : target.AddsNoKey stmt.points := addsNoKey_iff.mpr renames.noKey

theorem writesBounds : target.WritesBounds sql stmt.points := ⟨renames.rowCount, renames.offset⟩

theorem physical {name : String} (isKnown : stmt.tables.containsName name = true) :
    ∃ n ∈ stmt.tables.names, sameName name n = true ∧ target.physicalTable? name = some (suffixed n k) := by
  obtain ⟨n, member, same⟩ := Tables.containsName_iff.mp isKnown
  rw [sameName_comm] at same
  exact ⟨n, member, same, target.physicalTable?_congr same ▸ renames.tables n member⟩

theorem sound (parsed : parse d sql = .ok stmt) : (target.newNames stmt).Sound := by
  have renamed {name : String} (isKnown : stmt.tables.containsName name = true) :
      ∃ n ∈ stmt.tables.names, sameName name n = true ∧ (target.newNames stmt).rename name = suffixed n k := by
    obtain ⟨n, member, same, physical⟩ := renames.physical isKnown
    exact ⟨n, member, same, by simp only [newNames, physical, Option.getD_some]⟩
  refine ⟨fun x member => ?_, fun a b first second => ?_, fun a isKnown => ?_, fun a isKnown word telling => ?_⟩
  · exact containsName_of_parse parsed member
  · obtain ⟨n, -, same, isNew⟩ := renamed first
    obtain ⟨m, -, same', isNew'⟩ := renamed second
    rw [isNew, isNew', sameName_suffixed, Bool.eq_iff_iff, sameName_iff_lower, sameName_iff_lower, sameName_iff_lower.mp same,
      sameName_iff_lower.mp same']
  · obtain ⟨n, member, -, isNew⟩ := renamed isKnown
    rw [isNew]
    exact renames.fresh n member
  · obtain ⟨n, -, -, isNew⟩ := renamed isKnown
    rw [isNew]
    exact renames.suffix.other_word n (by revert word; decide)

section Text

variable {p : Place} {ts : List Token} {usesPlaceholder : Bool} {t : Token} {x : Exchange} (parsed : parse d sql = .ok stmt)
  (spaced : Spaced ts) (sited : Sited ts stmt.points)

include parsed spaced sited

/-- A name of a table gets its suffix, and a bound gets a new number. -/
theorem exchange_cases (inText : t ∈ ts) (exchanged : target.exchangeOf? [] usesPlaceholder stmt.points t = some x) :
    (∃ name n quote, .table t.span name quote ∈ stmt.points ∧ t.kind = quote.elim (.identifier name) (.quotedIdentifier name) ∧
      sameName name n = true ∧ target.physicalTable? name = some (suffixed n k) ∧
      x = ⟨(quote.elim (suffixed n k) (·.quote (suffixed n k))).toList,
        [quote.elim (.identifier (suffixed n k)) (.quotedIdentifier (suffixed n k))]⟩) ∨
    ∃ i n, t.kind = .integer i ∧ target.IsBound stmt.points t.span n ∧ x = ⟨(toString n.toInt).toList, [.integer n]⟩ := by
  rcases exchanged_cases spaced sited inText exchanged with ⟨name, quote, physical, member, isName, isPhysical, rfl⟩ |
    isBound | ⟨columnsEnd, valuesEnd, i, key, member, isKey, -⟩
  · have isKnown : stmt.tables.containsName name = true := containsName_of_parse parsed (x := ⟨name, t.span, quote⟩) member
    obtain ⟨n, -, same, named⟩ := renames.physical isKnown
    obtain rfl := Option.some.inj (isPhysical.symm.trans named)
    exact .inl ⟨name, n, quote, member, isName, same, named, rfl⟩
  · exact .inr isBound
  · rcases renames.addsNoKey with noKey | noPlace
    · rw [noKey] at isKey
      cases isKey
    · cases noPlace _ member

theorem exchangeable (reads : Reads d .start sql.toList ts p) :
    Exchangeable d sql.toList ts (fun _ => False) (target.exchangeOf? [] usesPlaceholder stmt.points) where
  fits t inText x exchanged source here := by
    refine .inl ?_
    rcases renames.exchange_cases parsed spaced sited inText exchanged with
      ⟨name, n, quote, -, isName, same, -, rfl⟩ | ⟨i, n, isInteger, isBound, rfl⟩
    · rw [isName]
      exact fits_of_suffixed same renames.suffix
    · rw [isInteger]
      exact fits_of_decimal (renames.writesBounds.isDecimal isBound source here) (renames.writesBounds.nonneg isBound)
  apart _ _ _ never := never.elim
  zeros t v adjacent x exchanged zero names := by
    obtain ⟨before, after, rfl⟩ := adjacent
    rcases renames.exchange_cases parsed spaced sited (by simp) exchanged with
      ⟨name, n, quote, -, -, -, -, rfl⟩ | ⟨i, n, isInteger, isBound, rfl⟩
    · exact absurd zero (suffixed_ne_zero n k quote)
    · obtain ⟨j, member⟩ := renames.writesBounds.isOffset isBound (eq_zero_of_toString (renames.writesBounds.nonneg isBound) zero)
      exact lock_of_offset parsed reads member ⟨before, after, rfl⟩ rfl names

/-- One token stands in the place of every token, and it is its twin. -/
theorem twin (reads : Reads d .start sql.toList ts p) (inText : t ∈ ts) :
    ∃ new, exchangedKinds (target.exchangeOf? [] usesPlaceholder stmt.points) t = [new] ∧
      ∀ t', t'.kind = new → (target.newNames stmt).Twin t t' := by
  cases exchanged : target.exchangeOf? [] usesPlaceholder stmt.points t with
  | none =>
    refine ⟨t.kind, by rw [exchangedKinds, exchanged, Option.elim_none], fun t' isKind => .same (fun marked => ?_) isKind⟩
    have member : .ofTable (.ofToken t) ∈ stmt.points := marked.2
    obtain ⟨n, -, -, physical⟩ := renames.physical (containsName_of_parse parsed member)
    have none := List.findSome?_eq_none_iff.mp exchanged _ member
    rw [RewritePoint.ofTable, exchangeAt?, if_pos (Identifier.span_ofToken t), physical] at none
    cases none
  | some x =>
    rcases renames.exchange_cases parsed spaced sited inText exchanged with
      ⟨name, n, quote, member, isName, -, physical, rfl⟩ | ⟨i, n, isInteger, isBound, rfl⟩
    · refine ⟨_, by rw [exchangedKinds, exchanged, Option.elim_some], fun t' isKind => .named ?_ ?_⟩
      · have names : t.kind.isIdentifier = true := by rw [isName]; cases quote <;> rfl
        have placed : (RewritePoint.table t.span name quote).At t := ⟨rfl, isName⟩
        exact ⟨names, placed.eq_ofTable names ▸ member⟩
      · have isNew : (target.newNames stmt).rename name = suffixed n k := by
          simp only [newNames, physical, Option.getD_some]
        rw [isKind, isName]
        cases quote <;> simp only [Option.elim, TokenKind.rename, isNew]
    · refine ⟨_, by rw [exchangedKinds, exchanged, Option.elim_some], fun t' isKind => ?_⟩
      obtain ⟨source, r, spells⟩ := (written_of_reads reads).spells inText
      rw [isInteger] at spells
      exact .number isInteger isKind spells.nonneg (renames.writesBounds.nonneg isBound)

/-- The rewritten text reads as the twins of the tokens. -/
theorem rereads (reads : Reads d .start sql.toList ts p) : ∃ text ts' e, rewritePlain sql stmt.points target = .ok text ∧
    Reads d .start text.toList ts' e ∧ List.Forall₂ (target.newNames stmt).Twin ts ts' := by
  have written : Written d 0 sql.toList ts := written_of_reads reads
  have exchangeable : Exchangeable d sql.toList ts _ (target.exchangeOf? [] false stmt.points) :=
    renames.exchangeable parsed spaced sited reads
  obtain ⟨-, rereads⟩ := written.exchange (List.nil_append _).symm rfl exchangeable
  obtain ⟨ts', e, reads', kinds⟩ := rereads .start
  rw [← applyFrom_edits_exchanges spaced sited written] at reads'
  refine ⟨String.ofList (applyFrom 0 sql.toList (target.edits false stmt.points)), ts', e, ?_,
    by rwa [String.toList_ofList], ?_⟩
  · rw [rewritePlain, applyEdits, checkEdits_ok sited target _ (laid_of_reads reads)]
    rfl
  · exact (forall₂_of_kinds (fun t inText => renames.twin parsed spaced sited reads inText) kinds).imp fun t t' same => same t' rfl

end Text

end Renames

end Target

variable {d : Dialect} {sql k : String} {stmt : Statement} {target : Target}

/-- A statement can be rewritten to the tables with the suffix, and it is read again as a statement of its kind with as many
placeholders, with the tables under their new names in the same order. -/
theorem parse_rewrite_of_renames (parsed : parse d sql = .ok stmt) (renames : target.Renames k sql stmt) :
    ∃ text stmt', rewritePlain sql stmt.points target = .ok text ∧
      (∀ parameters, rewrite sql stmt.points target parameters = .ok ⟨text, parameters⟩) ∧
      parse d text = .ok stmt' ∧ stmt'.kind = stmt.kind ∧ stmt'.parameterCount = stmt.parameterCount ∧
      stmt'.tables.names = stmt.tables.names.map (suffixed · k) := by
  obtain ⟨e, ts, reads, sited⟩ := sited_of_parse parsed
  obtain ⟨text, ts', e', applied, reads', twins⟩ := renames.rereads parsed (laid_of_reads reads).spaced sited reads
  have sound := renames.sound parsed
  obtain ⟨kind, p, us, n, st, again, first, run, rfl⟩ := parse_eq_ok_iff.mp parsed
  obtain rfl : us = ts := again.eq_of_tokenize (tokenize_of_reads reads)
  obtain ⟨st', run', agree⟩ := Renaming.walk_of_twins sound again.proper (laid_of_reads again).spaced twins run
    (fun x member => ((Statement.ofTable_mem_finish (n := n)).mp member).imp_right (·.1))
    (fun x member => Statement.mem_sortPoints.mpr (List.mem_append_left _ member)) rfl
  have begins : (target.newNames (st.finish n)).Twin (Cursor.along d p 0 us).current (Cursor.along d e' 0 ts').current :=
    Renaming.Parallel.twin ⟨0, us, ts', List.suffix_refl us, rfl, rfl, twins⟩
  refine ⟨text, st'.finish n, applied, fun parameters => ?_, parse_eq_ok_iff.mpr ⟨kind, e', ts', n, st', reads', ?_, run', rfl⟩,
    agree.kind, rfl, ?_⟩
  · rw [rewrite_of_noKey renames.addsNoKey, applied]
    rfl
  · rw [← first]
    exact (StatementKind.ofFirst?_alike begins.alike).symm
  · show st'.tables.entries.map (·.name) = (st.tables.entries.map (·.name)).map (suffixed · k)
    rw [agree.tables, List.map_map, List.map_map]
    refine List.map_congr_left fun entry member => ?_
    have physical := renames.tables entry.name (List.mem_map_of_mem member)
    show (target.physicalTable? entry.name).getD entry.name = suffixed entry.name k
    rw [physical, Option.getD_some]

/-- A page of a table that is also named before a column. -/
def qualifiedPage : Statement where
  kind := .select
  tables := ⟨[⟨"t", none⟩]⟩
  conditions := .empty
  points := [.table ⟨7, 8⟩ "t" none, .table ⟨16, 17⟩ "t" none, .offset ⟨24, 25⟩ 2, .rowCount ⟨27, 28⟩ 3]
  parameterCount := 0
  limit := some ⟨some (.literal 3), some (.literal 2), true⟩
  insertColumns := []
  insertRows := 0
  qualifiers := []

/-- The target of that page in a part of the table. -/
def firstPart : Target := ⟨[("T", "t_1")], some 5, some 0, none⟩

/-- The table is renamed at both places, and the page gets new bounds. -/
theorem parse_rewrite_qualifiedPage : parse .mysql "SELECT t.a FROM t LIMIT 2, 3" = .ok qualifiedPage ∧
    firstPart.Renames "1" "SELECT t.a FROM t LIMIT 2, 3" qualifiedPage ∧
    ∃ stmt', (∀ parameters, rewrite "SELECT t.a FROM t LIMIT 2, 3" qualifiedPage.points firstPart parameters =
        .ok ⟨"SELECT t_1.a FROM t_1 LIMIT 0, 5", parameters⟩) ∧
      parse .mysql "SELECT t_1.a FROM t_1 LIMIT 0, 5" = .ok stmt' ∧ stmt'.kind = .select ∧ stmt'.parameterCount = 0 ∧
      stmt'.tables.names = ["t_1"] := by
  have drafted : draft? .mysql "SELECT t.a FROM t LIMIT 2, 3" = some ({ qualifiedPage with
      points := [.table ⟨16, 17⟩ "t" none, .offset ⟨24, 25⟩ 2, .rowCount ⟨27, 28⟩ 3], qualifiers := [⟨"t", ⟨7, 8⟩, none⟩] }, 0) := by
    decide +kernel
  have finished : Statement.finish { qualifiedPage with
      points := [.table ⟨16, 17⟩ "t" none, .offset ⟨24, 25⟩ 2, .rowCount ⟨27, 28⟩ 3], qualifiers := [⟨"t", ⟨7, 8⟩, none⟩] } 0 =
      qualifiedPage := by cbv
  have parsed := parse_of_draft drafted
  rw [finished] at parsed
  have rewritten : rewritePlain "SELECT t.a FROM t LIMIT 2, 3" qualifiedPage.points firstPart =
      .ok "SELECT t_1.a FROM t_1 LIMIT 0, 5" := by cbv
  have renames : firstPart.Renames "1" "SELECT t.a FROM t LIMIT 2, 3" qualifiedPage := by
    have decimal {span : Span} {c : Char} (digit : c.isDigit = true)
        (here : slice? span.start span.finish "SELECT t.a FROM t LIMIT 2, 3".toList = some [c]) :
        IsDecimal "SELECT t.a FROM t LIMIT 2, 3" span := by
      intro source spot x member
      obtain rfl := Option.some.inj (here.symm.trans spot)
      exact List.mem_singleton.mp member ▸ digit
    have suffix : IsSuffix "1" := ⟨by decide, fun c member => List.mem_singleton.mp member ▸ rfl⟩
    refine ⟨suffix, ?_, ?_, ?_, ?_, .inr rfl⟩
    · rintro n (_ | ⟨_, ⟨⟩⟩)
      cbv
    · rintro n (_ | ⟨_, ⟨⟩⟩)
      rfl
    · rintro _ ⟨⟩
      refine ⟨by decide, fun span i member => ?_⟩
      obtain ⟨rfl, rfl⟩ : span = ⟨27, 28⟩ ∧ i = 3 := by simpa [qualifiedPage] using member
      exact decimal (c := '3') rfl (by decide +kernel)
    · rintro _ ⟨⟩
      refine ⟨by decide, fun span i member => ?_⟩
      obtain ⟨rfl, rfl⟩ : span = ⟨24, 25⟩ ∧ i = 2 := by simpa [qualifiedPage] using member
      exact decimal (c := '2') rfl (by decide +kernel)
  obtain ⟨text, stmt', plain, bound, parsed', kind, count, names⟩ := parse_rewrite_of_renames parsed renames
  obtain rfl : text = "SELECT t_1.a FROM t_1 LIMIT 0, 5" := Except.ok.inj (plain.symm.trans rewritten)
  exact ⟨parsed, renames, stmt', bound, parsed', kind, count, names⟩

end Rewrite

end SqlSharding
