import SqlSharding.Proofs.Rereading
import SqlSharding.Proofs.Tiling

/-!
# Names as they are written

The name of a table is written in the text of a statement as its quotes write it, so a target that gives every name itself leaves
the text as it is (`rewrite_ownNames`). A delimited name is read back from its delimiters as one token exactly if every closing
character in it can be doubled, and so is the physical name that takes its place (`rewrite_quotedNames`).
-/

namespace SqlSharding

open Text

namespace Sql

variable {d : Dialect} {source r : List Char} {start : Nat} {cs : List Char} {ts : List Token}

/-! ## Spellings of names -/

/-- A name is spelled as its quotes write it, or bare. -/
theorem Spells.eq_name {name : String} {quote : Option QuoteStyle}
    (spells : Spells d source r (quote.elim (.identifier name) (.quotedIdentifier name))) :
    source = (quote.elim name (·.quote name)).toList := by
  cases quote with
  | none =>
    obtain ⟨c, tail, rfl, word, -⟩ := Spells.identifier spells
    exact word.symm
  | some style => exact (Spells.quotedIdentifier spells).1

/-- The source of every token is found in the text, and it spells the token. -/
theorem Written.exists_source (written : Written d start cs ts) {whole before : List Char} (split : whole = before ++ cs)
    (here : start = byteLength before) {t : Token} (member : t ∈ ts) :
    ∃ source r, slice? t.span.start t.span.finish whole = some source ∧ Spells d source r t.kind := by
  induction written generalizing before with
  | done => cases member
  | @next start u ts blank source r begins ends gap spells tail ih =>
    rcases List.mem_cons.mp member with rfl | later
    · exact ⟨source, r, slice?_of_split split (here ▸ begins) ends, spells⟩
    · have behind : whole = before ++ blank ++ source ++ r := by simp [split]
      exact ih behind (by simp only [byteLength_append]; omega) later

/-- A text that one token takes up is read as this token. -/
theorem Spells.tokenize {sql : String} {kind : TokenKind} (spells : Spells d sql.toList [] kind) :
    tokenize d sql = .ok [⟨kind, ⟨0, byteLength sql.toList⟩, 1, 1⟩, Token.endAt (Place.start.afterAll sql.toList)] := by
  obtain ⟨stops, c, tail, text, front⟩ := spells
  rw [text, List.append_nil] at stops
  have token := front 0
  rw [List.append_nil] at token
  have nothing (p : Place) : Reads d p (tail.drop tail.length) [] p := by
    rw [List.drop_length]
    exact .done rfl
  have reads := Reads.next (stops .start) token (nothing _)
  rw [List.take_length, ← text] at reads
  have length : byteLength sql.toList = ((Place.start.after c).afterAll tail).offset := by
    rw [text, Place.afterAll_offset, Place.after_offset, byteLength_cons]
    simp [Place.start]
  rw [length, text]
  exact tokenize_of_reads reads

variable {style : QuoteStyle} {name : String}

/-- A name between delimiters is read back as this one name. -/
theorem tokenize_quote (names : style = .double → d.doubleQuotedStrings = false) (fits : style.Fits name.toList) :
    tokenize d (style.quote name) =
      .ok [⟨.quotedIdentifier name style, ⟨0, byteLength (style.quote name).toList⟩, 1, 1⟩,
        Token.endAt (Place.start.afterAll (style.quote name).toList)] :=
  (spells_quote names fits fun _ => by simp).tokenize

/-- Only a name that fits is ever read from delimiters. -/
theorem fits_of_tokenize {sql : String}
    (tokens : (tokenize d sql).map (·.map (·.kind)) = .ok [.quotedIdentifier name style, .endOfInput]) :
    style.Fits name.toList := by
  cases read : tokenize d sql with
  | error =>
    rw [read] at tokens
    cases tokens
  | ok us =>
    rw [read] at tokens
    obtain ⟨ts, e, rfl⟩ := TokenStream.exists_of_toList? read
    have kinds : (ts ++ [Token.endAt e]).map (·.kind) = [.quotedIdentifier name style, .endOfInput] := Except.ok.inj tokens
    rw [List.map_append] at kinds
    obtain ⟨t, rfl, isName⟩ := List.map_eq_singleton_iff.mp (List.append_inj_left' kinds rfl)
    obtain ⟨source, r, spells⟩ := (written_of_reads (reads_of_tokenize read)).spells (List.mem_singleton_self t)
    rw [isName] at spells
    exact spells.quotedIdentifier.2.2.1

end Sql

namespace Rewrite

open Sql

variable {d : Dialect} {sql : String} {stmt : Statement} {points : List RewritePoint} {start : Nat} {cs : List Char}
  {ts : List Token} {target : Target}

/-! ## Names that stay -/

/-- Tokens that are replaced by their own source leave the text as it is. -/
theorem applyFrom_own {new : Token → Option (List Char)} (laid : Laid start cs ts) {whole before : List Char}
    (split : whole = before ++ cs) (here : start = byteLength before)
    (own : ∀ t ∈ ts, ∀ source, new t = some source → slice? t.span.start t.span.finish whole = some source) :
    applyFrom start cs (replacements new ts) = cs := by
  induction laid generalizing before with
  | nil => rfl
  | @cons start t ts gap source after nonempty begins ends tail ih =>
    have rest : applyFrom t.span.finish after (replacements new ts) = after := by
      have behind : whole = before ++ gap ++ source ++ after := by simp [split]
      exact ih behind (by simp only [byteLength_append]; omega) fun u member => own u (List.mem_cons_of_mem t member)
    have same : (new t).getD source = source := by
      cases replaced : new t with
      | none => rfl
      | some source' =>
        have spot := slice?_of_split split (here ▸ begins) ends
        exact Option.some.inj ((own t List.mem_cons_self source' replaced).symm.trans spot)
    rw [applyFrom_replacements_cons begins ends tail, rest, same]

/-- The place of a table's name holds the name as its quotes write it. -/
theorem source_of_table (parsed : parse d sql = .ok stmt) {span : Span} {name : String} {quote : Option QuoteStyle}
    (member : .table span name quote ∈ stmt.points) :
    slice? span.start span.finish sql.toList = some (quote.elim name (·.quote name)).toList := by
  obtain ⟨p, ts, reads, sited⟩ := sited_of_parse parsed
  obtain ⟨t, inText, rfl, isName⟩ := (sited.stands _ member).token rfl
  obtain ⟨source, r, spot, spells⟩ := (written_of_reads reads).exists_source (List.nil_append _).symm rfl inText
  rw [isName] at spells
  rw [spot, spells.eq_name]

namespace Target

/-- A target that maps every name of a table to the name itself, and changes nothing else. -/
structure KeepsNames (target : Target) (points : List RewritePoint) : Prop where
  names : ∀ span name quote, .table span name quote ∈ points → target.physicalTable? name = some name
  rowCount : target.rowCount = none
  offset : target.offset = none
  generatedKey : target.generatedKey = none

/-- The names of tables at the given places, each one mapped to itself. -/
def ofOwnNames (points : List RewritePoint) : Target where
  tables := points.filterMap fun
    | .table _ name _ => some (name, name)
    | _ => none
  rowCount := none
  offset := none
  generatedKey := none

/-- A target that keeps the names keeps the text. -/
theorem KeepsNames.applyFrom_edits (keeps : target.KeepsNames stmt.points) (parsed : parse d sql = .ok stmt) {p : Place}
    (reads : Reads d .start sql.toList ts p) (sited : Sited ts stmt.points) :
    applyFrom 0 sql.toList (target.edits false stmt.points) = sql.toList := by
  have laid : Laid 0 sql.toList ts := laid_of_reads reads
  rw [edits_eq laid.spaced sited keeps.generatedKey]
  refine applyFrom_own laid (List.nil_append _).symm rfl fun t inText source spelling => ?_
  obtain ⟨q, found, spelled⟩ := Option.bind_eq_some_iff.mp spelling
  have member := List.mem_of_find?_eq_some found
  have here : q.position = t.span.start := by simpa using List.find?_some found
  cases q with
  | table span name quote =>
    obtain ⟨u, inText', placed⟩ := (sited.stands _ member).token rfl
    obtain rfl := laid.spaced.eq_of_start inText' inText (placed.position_eq.symm.trans here)
    rw [textAt?, keeps.names span name quote member] at spelled
    rw [placed.1, ← Option.some.inj spelled]
    exact source_of_table parsed member
  | offset =>
    rw [textAt?, keeps.offset] at spelled
    cases spelled
  | rowCount =>
    rw [textAt?, keeps.rowCount] at spelled
    cases spelled
  | generatedKey => cases spelled

end Target

/-- All places of a table spell its name alike. -/
def SpelledAlike (points : List RewritePoint) : Prop :=
  ∀ span name quote span' name' quote', .table span name quote ∈ points → .table span' name' quote' ∈ points →
    sameName name name' = true → name = name'

/-- The names can be kept exactly if they are spelled alike. -/
theorem spelledAlike_iff : SpelledAlike points ↔ (Target.ofOwnNames points).KeepsNames points := by
  constructor
  · intro alike
    refine ⟨fun span name quote member => ?_, rfl, rfl, rfl⟩
    cases found : (Target.ofOwnNames points).tables.find? fun entry => sameName entry.1 name with
    | none =>
      have entry : (name, name) ∈ (Target.ofOwnNames points).tables := List.mem_filterMap.mpr ⟨_, member, rfl⟩
      exact absurd (sameName_refl name) (List.find?_eq_none.mp found _ entry)
    | some entry =>
      have same : sameName entry.1 name = true := by simpa using List.find?_some found
      obtain ⟨q, member', isEntry⟩ := List.mem_filterMap.mp (List.mem_of_find?_eq_some found)
      cases q with
      | table span' name' quote' =>
        cases isEntry
        rw [Target.physicalTable?, found, Option.map_some, alike span' name' quote' span name quote member' member same]
      | _ => cases isEntry
  · intro keeps span name quote span' name' quote' member member' same
    have own := keeps.names span name quote member
    rw [Target.physicalTable?_congr _ same] at own
    exact Option.some.inj (own.symm.trans (keeps.names span' name' quote' member'))

/-- The place of every table's name holds the name as its quotes write it. So a target that maps every name to itself leaves
the statement as it is, and the names of the statement are such a target if they are spelled alike. -/
theorem rewrite_ownNames (parsed : parse d sql = .ok stmt) :
    (∀ span name quote, .table span name quote ∈ stmt.points →
      slice? span.start span.finish sql.toList = some (quote.elim name (·.quote name)).toList) ∧
    (∀ target : Target, target.KeepsNames stmt.points →
      (∀ parameters, rewrite sql stmt.points target parameters = .ok ⟨sql, parameters⟩) ∧
        rewritePlain sql stmt.points target = .ok sql) ∧
    (SpelledAlike stmt.points ↔ (Target.ofOwnNames stmt.points).KeepsNames stmt.points) := by
  refine ⟨fun _ _ _ => source_of_table parsed, fun target keeps => ?_, spelledAlike_iff⟩
  obtain ⟨p, ts, reads, sited⟩ := sited_of_parse parsed
  have kept : rewritePlain sql stmt.points target = .ok sql := by
    rw [rewritePlain, applyEdits, Target.checkEdits_ok sited target false (laid_of_reads reads),
      keeps.applyFrom_edits parsed reads sited, String.ofList_toList]
    rfl
  refine ⟨fun parameters => ?_, kept⟩
  rw [rewrite_of_noKey (.inl keeps.generatedKey), kept]
  rfl

/-- A table whose name has a delimiter in it, which is also named before a column. -/
def doubledDelimiter : Statement where
  kind := .select
  tables := ⟨[⟨"é`t", none⟩]⟩
  conditions := .empty
  points := [.table ⟨7, 14⟩ "é`t" (some .backtick), .table ⟨22, 29⟩ "é`t" (some .backtick)]
  parameterCount := 0
  limit := none
  insertColumns := []
  insertRows := 0
  qualifiers := []

/-- The delimiter in the name is written twice, and the name stays as it is written. -/
theorem rewrite_ownNames_doubledDelimiter : parse .mysql "SELECT `é``t`.a FROM `é``t`" = .ok doubledDelimiter ∧
    SpelledAlike doubledDelimiter.points ∧
    slice? 7 14 "SELECT `é``t`.a FROM `é``t`".toList = some (QuoteStyle.backtick.quote "é`t").toList ∧
    ∀ parameters, rewrite "SELECT `é``t`.a FROM `é``t`" doubledDelimiter.points (.ofOwnNames doubledDelimiter.points)
      parameters = .ok ⟨"SELECT `é``t`.a FROM `é``t`", parameters⟩ := by
  have drafted : draft? .mysql "SELECT `é``t`.a FROM `é``t`" = some ({ doubledDelimiter with
      points := [.table ⟨22, 29⟩ "é`t" (some .backtick)], qualifiers := [⟨"é`t", ⟨7, 14⟩, some .backtick⟩] }, 0) := by
    decide +kernel
  have finished : Statement.finish { doubledDelimiter with
      points := [.table ⟨22, 29⟩ "é`t" (some .backtick)], qualifiers := [⟨"é`t", ⟨7, 14⟩, some .backtick⟩] } 0 =
      doubledDelimiter := by cbv
  have parsed := parse_of_draft drafted
  rw [finished] at parsed
  have sole {span : Span} {name : String} {quote : Option QuoteStyle}
      (member : .table span name quote ∈ doubledDelimiter.points) : name = "é`t" := by
    obtain ⟨-, same, -⟩ | ⟨-, same, -⟩ : (span = ⟨7, 14⟩ ∧ name = "é`t" ∧ quote = some .backtick) ∨
        (span = ⟨22, 29⟩ ∧ name = "é`t" ∧ quote = some .backtick) := by simpa [doubledDelimiter] using member
    · exact same
    · exact same
  have alike : SpelledAlike doubledDelimiter.points :=
    fun _ _ _ _ _ _ member member' _ => (sole member).trans (sole member').symm
  obtain ⟨sources, kept, keeps⟩ := rewrite_ownNames parsed
  exact ⟨parsed, alike, sources ⟨7, 14⟩ "é`t" (some .backtick) (by simp [doubledDelimiter]), (kept _ (keeps.mp alike)).1⟩

/-! ## Names that are read back -/

namespace Target

/-- A target of which every name fits where it is written, and which gives new numbers only to bounds in decimal notation. Between
delimiters the closing character can be doubled or does not stand in the name. A bare name gets a suffix, or it becomes another word
where a gap or a sign stands before it. No key is added. -/
structure FitsNames (target : Target) (d : Dialect) (sql : String) (ts : List Token) (points : List RewritePoint) : Prop where
  quoted : ∀ span name style, .table span name (some style) ∈ points →
    ∀ physical, target.physicalTable? name = some physical → style.Fits physical.toList
  bare : ∀ span name, .table span name none ∈ points →
    ∀ physical, target.physicalTable? name = some physical →
      (∃ name' k, IsSuffix k ∧ sameName name name' = true ∧ physical = suffixed name' k) ∨
        IsBareName d physical ∧ ∀ t ∈ ts, t.span.finish = span.start → ∃ s, t.kind = .symbol s
  writesBounds : target.WritesBounds sql points
  addsNoKey : target.AddsNoKey points

/-- A token of the rewritten text is the physical name where a name was replaced, in the same quotes, the new number where a bound
was replaced, and what it was elsewhere. -/
structure RewritesToken (target : Target) (points : List RewritePoint) (t t' : Token) : Prop where
  renamed : ∀ name quote, .table t.span name quote ∈ points → ∀ physical, target.physicalTable? name = some physical →
    t'.kind = quote.elim (.identifier physical) (.quotedIdentifier physical)
  bounded : ∀ n, target.IsBound points t.span n → t'.kind = .integer n
  kept : (∀ name quote, .table t.span name quote ∈ points → target.physicalTable? name = none) →
    (∀ n, ¬ target.IsBound points t.span n) → t'.kind = t.kind

namespace FitsNames

variable {p : Place} {usesPlaceholder : Bool} {t : Token} {x : Exchange}

section Text

variable (fits : target.FitsNames d sql ts points) (spaced : Spaced ts) (sited : Sited ts points)

include fits spaced sited

/-- Names and bounds are exchanged. -/
theorem exchange_cases (inText : t ∈ ts) (exchanged : target.exchangeOf? [] usesPlaceholder points t = some x) :
    (∃ name quote physical, .table t.span name quote ∈ points ∧
      t.kind = quote.elim (.identifier name) (.quotedIdentifier name) ∧ target.physicalTable? name = some physical ∧
      x = ⟨(quote.elim physical (·.quote physical)).toList,
        [quote.elim (.identifier physical) (.quotedIdentifier physical)]⟩) ∨
    ∃ i n, t.kind = .integer i ∧ target.IsBound points t.span n ∧ x = ⟨(toString n.toInt).toList, [.integer n]⟩ := by
  rcases exchanged_cases spaced sited inText exchanged with isName | isBound | ⟨columnsEnd, valuesEnd, i, key, member, isKey, -⟩
  · exact .inl isName
  · exact .inr isBound
  · rcases fits.addsNoKey with noKey | noPlace
    · rw [noKey] at isKey
      cases isKey
    · cases noPlace _ member

theorem not_exchanged_symbol (inText : t ∈ ts) {s : Symbol} (isSign : t.kind = .symbol s) :
    target.exchangeOf? [] usesPlaceholder points t = none := by
  cases exchanged : target.exchangeOf? [] usesPlaceholder points t with
  | none => rfl
  | some x =>
    rcases fits.exchange_cases spaced sited inText exchanged with ⟨_, quote, _, -, isName, -⟩ | ⟨_, _, isInteger, -⟩
    · rw [isSign] at isName
      cases quote <;> cases isName
    · rw [isSign] at isInteger
      cases isInteger

end Text

/-- What takes the place of a detached token is a bare name. -/
def Detached (ts : List Token) (t : Token) : Prop := ∀ u ∈ ts, u.span.finish = t.span.start → ∃ s, u.kind = .symbol s

theorem exchangeable {stmt : Statement} (fits : target.FitsNames d sql ts stmt.points) (parsed : parse d sql = .ok stmt)
    (spaced : Spaced ts) (sited : Sited ts stmt.points) (reads : Reads d .start sql.toList ts p) :
    Exchangeable d sql.toList ts (Detached ts) (target.exchangeOf? [] usesPlaceholder stmt.points) where
  fits t inText x exchanged source here := by
    rcases fits.exchange_cases spaced sited inText exchanged with
      ⟨name, quote, physical, member, isName, isPhysical, rfl⟩ | ⟨i, n, isInteger, isBound, rfl⟩
    · rw [isName]
      cases quote with
      | none =>
        rcases fits.bare t.span name member physical isPhysical with ⟨name', k, suffix, same, rfl⟩ | ⟨bare, apart⟩
        · exact .inl (fits_of_suffixed same suffix)
        · refine .inr ⟨apart, bare.startsWord, fun r r' resembles spells => .last (bare.spells ?_)⟩
          obtain ⟨_, _, -, -, -, -, ends⟩ := Spells.identifier spells
          exact (resembles.any_eq (·.isWordPart_eq)).symm.trans ends
      | some style =>
        refine .inl fun r r' resembles spells _ => ?_
        obtain ⟨spells', resembles'⟩ := Spells.quote spells (fits.quoted t.span name style member physical isPhysical) resembles
        exact ⟨.last spells', resembles'⟩
    · rw [isInteger]
      exact .inl (fits_of_decimal (fits.writesBounds.isDecimal isBound source here) (fits.writesBounds.nonneg isBound))
  apart t u adjacent detached adjoins := by
    obtain ⟨before, after, rfl⟩ := adjacent
    obtain ⟨s, isSign⟩ := detached t (by simp) adjoins
    exact ⟨⟨s, isSign⟩, fits.not_exchanged_symbol spaced sited (by simp) isSign⟩
  zeros t u adjacent x exchanged zero names := by
    obtain ⟨before, after, rfl⟩ := adjacent
    rcases fits.exchange_cases spaced sited (by simp) exchanged with
      ⟨name, quote, physical, member, -, isPhysical, rfl⟩ | ⟨i, n, isInteger, isBound, rfl⟩
    · cases quote with
      | none =>
        rcases fits.bare t.span name member physical isPhysical with ⟨name', k, -, -, rfl⟩ | ⟨bare, -⟩
        · exact absurd zero (suffixed_ne_zero name' k none)
        · have word : startsWord physical.toList = true := bare.startsWord
          rw [show physical.toList = ['0'] from zero] at word
          exact absurd word (by decide)
      | some style =>
        rw [Option.elim_some, QuoteStyle.quote, String.toList_ofList] at zero
        cases style <;> exact absurd (List.cons.inj zero).1 (by decide)
    · obtain ⟨j, member⟩ := fits.writesBounds.isOffset isBound (eq_zero_of_toString (fits.writesBounds.nonneg isBound) zero)
      exact lock_of_offset parsed reads member ⟨before, after, rfl⟩ rfl names

theorem rewritesToken (fits : target.FitsNames d sql ts points) (spaced : Spaced ts) (sited : Sited ts points) (inText : t ∈ ts) :
    ∃ new, exchangedKinds (target.exchangeOf? [] usesPlaceholder points) t = [new] ∧
      ∀ t', t'.kind = new → target.RewritesToken points t t' := by
  have single : ∃ new, exchangedKinds (target.exchangeOf? [] usesPlaceholder points) t = [new] ∧
      (target.exchangeOf? [] usesPlaceholder points t = none → new = t.kind) := by
    cases exchanged : target.exchangeOf? [] usesPlaceholder points t with
    | none => exact ⟨t.kind, by rw [exchangedKinds, exchanged, Option.elim_none], fun _ => rfl⟩
    | some x =>
      have never {kind : TokenKind} (none : some x = none) : kind = t.kind := absurd none (Option.some_ne_none x)
      rcases fits.exchange_cases spaced sited inText exchanged with ⟨_, _, _, -, -, -, rfl⟩ | ⟨_, _, -, -, rfl⟩
      · exact ⟨_, by rw [exchangedKinds, exchanged, Option.elim_some], never⟩
      · exact ⟨_, by rw [exchangedKinds, exchanged, Option.elim_some], never⟩
  obtain ⟨new, isNew, unchanged⟩ := single
  have at_point {q : RewritePoint} {source : List Char} {kind : TokenKind} (member : q ∈ points)
      (exchanged : target.exchangeAt? [] usesPlaceholder t q = some ⟨source, [kind]⟩) : new = kind := by
    rw [exchangedKinds, exchangeOf?_of_exchangeAt? spaced sited inText member exchanged, Option.elim_some] at isNew
    exact (List.singleton_inj.mp isNew).symm
  refine ⟨new, isNew, fun t' isKind => ⟨?_, ?_, ?_⟩⟩
  · intro name quote member physical isPhysical
    rw [isKind]
    exact at_point member (by rw [exchangeAt?, if_pos rfl, isPhysical]; rfl)
  · rintro n ⟨i, ⟨member, isBound⟩ | ⟨member, isBound⟩⟩
    · rw [isKind]
      exact at_point member (by rw [exchangeAt?, if_pos rfl, isBound]; rfl)
    · rw [isKind]
      exact at_point member (by rw [exchangeAt?, if_pos rfl, isBound]; rfl)
  · intro noName noBound
    rw [isKind]
    apply unchanged
    cases exchanged : target.exchangeOf? [] usesPlaceholder points t with
    | none => rfl
    | some x =>
      rcases fits.exchange_cases spaced sited inText exchanged with ⟨name, quote, _, member, -, isPhysical, -⟩ | ⟨_, n, -, isBound, -⟩
      · rw [noName name quote member] at isPhysical
        cases isPhysical
      · exact absurd isBound (noBound n)

end FitsNames

end Target

/-- A name between delimiters is read back as this one name exactly if it fits. So where a statement is rewritten to names that
fit, every physical name is read back as one name in the quotes of the name that it replaced. -/
theorem rewrite_quotedNames :
    (∀ style name, (style = .double → d.doubleQuotedStrings = false) →
      ((tokenize d (style.quote name)).map (·.map (·.kind)) = .ok [.quotedIdentifier name style, .endOfInput] ↔
        style.Fits name.toList)) ∧
    ∀ sql stmt ts e, parse d sql = .ok stmt → tokenize d sql = .ok (ts ++ [Token.endAt e]) →
      ∀ target : Target, target.FitsNames d sql ts stmt.points →
        ∃ text ts' e', rewritePlain sql stmt.points target = .ok text ∧
          (∀ parameters, rewrite sql stmt.points target parameters = .ok ⟨text, parameters⟩) ∧
          tokenize d text = .ok (ts' ++ [Token.endAt e']) ∧ List.Forall₂ (target.RewritesToken stmt.points) ts ts' := by
  refine ⟨fun style name names => ⟨fits_of_tokenize, fun fits => ?_⟩, fun sql stmt us e parsed tokens target fits => ?_⟩
  · rw [tokenize_quote names fits]
    rfl
  obtain ⟨p, ts, reads, sited⟩ := sited_of_parse parsed
  obtain rfl := reads.eq_of_tokenize tokens
  have spaced := (laid_of_reads reads).spaced
  have written : Written d 0 sql.toList ts := written_of_reads reads
  have exchangeable : Exchangeable d sql.toList ts _ (target.exchangeOf? [] false stmt.points) :=
    fits.exchangeable parsed spaced sited reads
  obtain ⟨-, rereads⟩ := written.exchange (List.nil_append _).symm rfl exchangeable
  obtain ⟨ts', e', reads', kinds⟩ := rereads .start
  rw [← Target.applyFrom_edits_exchanges spaced sited written, ← String.toList_ofList (l := applyFrom _ _ _)] at reads'
  have applied : rewritePlain sql stmt.points target =
      .ok (String.ofList (applyFrom 0 sql.toList (target.edits false stmt.points))) := by
    rw [rewritePlain, applyEdits, Target.checkEdits_ok sited target _ (laid_of_reads reads)]
    rfl
  refine ⟨_, ts', e', applied, fun parameters => ?_, tokenize_of_reads reads', ?_⟩
  · rw [rewrite_of_noKey fits.addsNoKey, applied]
    rfl
  · exact (forall₂_of_kinds (fun t inText => fits.rewritesToken spaced sited inText) kinds).imp fun t t' same => same t' rfl

/-- A page of two tables, one with a delimited name. -/
def delimitedTable : Statement where
  kind := .select
  tables := ⟨[⟨"t", none⟩, ⟨"u", none⟩]⟩
  conditions := .empty
  points := [.table ⟨14, 17⟩ "t" (some .backtick), .table ⟨19, 20⟩ "u" none, .rowCount ⟨27, 28⟩ 3]
  parameterCount := 0
  limit := some ⟨some (.literal 3), none, true⟩
  insertColumns := []
  insertRows := 0
  qualifiers := []

/-- Its tokens. -/
def delimitedTokens : List Token :=
  [⟨.keyword .select, ⟨0, 6⟩, 1, 1⟩, ⟨.symbol .star, ⟨7, 8⟩, 1, 8⟩, ⟨.keyword .from, ⟨9, 13⟩, 1, 10⟩,
    ⟨.quotedIdentifier "t" .backtick, ⟨14, 17⟩, 1, 15⟩, ⟨.symbol .comma, ⟨17, 18⟩, 1, 18⟩, ⟨.identifier "u", ⟨19, 20⟩, 1, 20⟩,
    ⟨.keyword .limit, ⟨21, 26⟩, 1, 22⟩, ⟨.integer 3, ⟨27, 28⟩, 1, 28⟩]

/-- A target that gives one table a name with the delimiter in it, the other one another word, and the page a new row count. -/
def delimiterInName : Target := ⟨[("t", "a`b"), ("u", "events")], some 5, none, none⟩

/-- The delimiter in the physical name is doubled, and all names are read back. -/
theorem rewrite_quotedNames_delimiterInName :
    (tokenize .mysql (QuoteStyle.backtick.quote "a`b")).map (·.map (·.kind)) =
      .ok [.quotedIdentifier "a`b" .backtick, .endOfInput] ∧
    delimiterInName.FitsNames .mysql "SELECT * FROM `t`, u LIMIT 3" delimitedTokens delimitedTable.points ∧ ∃ ts' e',
      (∀ parameters, rewrite "SELECT * FROM `t`, u LIMIT 3" delimitedTable.points delimiterInName parameters =
        .ok ⟨"SELECT * FROM `a``b`, events LIMIT 5", parameters⟩) ∧
      tokenize .mysql "SELECT * FROM `a``b`, events LIMIT 5" = .ok (ts' ++ [Token.endAt e']) ∧
      List.Forall₂ (delimiterInName.RewritesToken delimitedTable.points) delimitedTokens ts' := by
  have drafted : draft? .mysql "SELECT * FROM `t`, u LIMIT 3" = some (delimitedTable, 0) := by decide +kernel
  have finished : delimitedTable.finish 0 = delimitedTable := by cbv
  have parsed := parse_of_draft drafted
  rw [finished] at parsed
  have tokens : tokenize .mysql "SELECT * FROM `t`, u LIMIT 3" = .ok (delimitedTokens ++ [Token.endAt ⟨28, 1, 29⟩]) := by decide +kernel
  have rewritten : rewritePlain "SELECT * FROM `t`, u LIMIT 3" delimitedTable.points delimiterInName =
      .ok "SELECT * FROM `a``b`, events LIMIT 5" := by cbv
  have fits : delimiterInName.FitsNames .mysql "SELECT * FROM `t`, u LIMIT 3" delimitedTokens delimitedTable.points := by
    refine ⟨?_, ?_, ⟨?_, ?_⟩, .inl rfl⟩
    · intro span name style member physical _
      obtain ⟨-, -, rfl⟩ : span = ⟨14, 17⟩ ∧ name = "t" ∧ style = .backtick := by simpa [delimitedTable] using member
      exact .inl rfl
    · intro span name member physical isPhysical
      obtain ⟨rfl, rfl⟩ : span = ⟨19, 20⟩ ∧ name = "u" := by simpa [delimitedTable] using member
      have named : delimiterInName.physicalTable? "u" = some "events" := by cbv
      obtain rfl : "events" = physical := Option.some.inj (named.symm.trans isPhysical)
      refine .inr ⟨⟨'e', ['v', 'e', 'n', 't', 's'], rfl, by decide, by simp [isWordPart, isAsciiAlphanumeric], by decide +kernel⟩, ?_⟩
      simp [delimitedTokens]
    · rintro _ ⟨⟩
      refine ⟨by decide, fun span i member => ?_⟩
      obtain ⟨rfl, rfl⟩ : span = ⟨27, 28⟩ ∧ i = 3 := by simpa [delimitedTable] using member
      intro source spot c isIn
      obtain rfl : ['3'] = source := Option.some.inj spot
      obtain rfl := List.mem_singleton.mp isIn
      rfl
    · rintro _ ⟨⟩
  obtain ⟨quotes, rewrites⟩ := rewrite_quotedNames (d := .mysql)
  obtain ⟨text, ts', e', plain, bound, tokens', renamed⟩ := rewrites _ _ _ _ parsed tokens _ fits
  obtain rfl : text = "SELECT * FROM `a``b`, events LIMIT 5" := Except.ok.inj (plain.symm.trans rewritten)
  exact ⟨(quotes .backtick "a`b" (absurd · (by decide))).mpr (.inl rfl), fits, ts', e', bound, tokens', renamed⟩

/-- A closing bracket is not doubled, so a name with one breaks out of its brackets. -/
theorem quote_not_read_back : ¬ ∀ (d : Dialect) (style : QuoteStyle) (name : String), name ≠ "" →
    (style = .double → d.doubleQuotedStrings = false) →
      (tokenize d (style.quote name)).map (·.map (·.kind)) = .ok [.quotedIdentifier name style, .endOfInput] := by
  intro readBack
  have tokens := readBack .mysql .bracket "a]b" (by decide) nofun
  rcases fits_of_tokenize tokens with doubles | apart
  · cases doubles
  · exact apart (by decide)

example : tokenize .mysql (QuoteStyle.bracket.quote "a]b") = .error (.atPlace (.unexpectedCharacter ']') ⟨4, 1, 5⟩) := by
  cbv

end Rewrite

end SqlSharding
