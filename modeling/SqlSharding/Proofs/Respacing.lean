import SqlSharding.Proofs.Exchanges
import SqlSharding.Proofs.Relocation

/-!
# Other gaps

A token is the same wherever white space follows it. So a text in which the tokens of another one stand as they are written there,
with other gaps between them, reads as the same tokens (`Written.respace`).
-/

namespace SqlSharding

open Text

namespace Sql

variable {d : Dialect} {source text whole : List Char} {sources : List (List Char)} {ts : List Token} {start : Nat}

/-- A text of the given sources in this order, each with a gap behind it that begins with white space. Only behind the last one
there may be nothing. How a gap ends makes no difference. -/
inductive Respaced (d : Dialect) : List (List Char) → List Char → Prop
  | nil : Respaced d [] []
  | cons (source : List Char) {gap text : List Char} {sources : List (List Char)} (isGap : IsGap d true gap)
    (begins : gap.head?.all isSpace = true) (between : gap = [] → sources = []) (tail : Respaced d sources text) :
    Respaced d (source :: sources) (source ++ (gap ++ text))

/-- The source of a token in a text. -/
def Token.IsWrittenAs (whole : List Char) (t : Token) (source : List Char) : Prop :=
  slice? t.span.start t.span.finish whole = some source

instance (whole : List Char) : DecidableRel (Token.IsWrittenAs whole) :=
  fun t source => inferInstanceAs (Decidable (slice? t.span.start t.span.finish whole = some source))

/-- What stands in a text at the places of its tokens spells them, whatever follows there. -/
theorem Written.spelled {cs before : List Char} (written : Written d start cs ts) (split : whole = before ++ cs)
    (here : start = byteLength before) (sourcesOf : List.Forall₂ (Token.IsWrittenAs whole) ts sources) :
    List.Forall₂ (fun source kind => ∃ after, Spells d source after kind) sources (ts.map (·.kind)) := by
  induction written generalizing before sources with
  | done =>
    cases sourcesOf
    exact .nil
  | @next start t ts blank source after begins ends gap spells tail ih =>
    cases sourcesOf with
    | cons first others =>
      have same : t.IsWrittenAs whole source := slice?_of_split split (here ▸ begins) ends
      obtain rfl := Option.some.inj (same.symm.trans first)
      have split' : whole = before ++ (blank ++ source) ++ after := by rw [split, List.append_assoc before]
      have here' : t.span.finish = byteLength (before ++ (blank ++ source)) := by
        simp only [byteLength_append]
        omega
      exact .cons ⟨after, spells⟩ (ih split' here' others)

/-- What follows a source in the other text can stand behind it in place of what followed before. -/
theorem Respaced.replaces {gap : List Char} (begins : gap.head?.all isSpace = true) (between : gap = [] → sources = [])
    (respaced : Respaced d sources text) (after : List Char) : Replaces after (gap ++ text) := by
  cases gap with
  | nil =>
    obtain rfl := between rfl
    cases respaced
    exact .nothing
  | cons c gap => exact .space begins

/-- Spelled sources are read as tokens of their kinds, whatever gaps there are between them. -/
theorem Respaced.reads {kinds : List TokenKind} (respaced : Respaced d sources text)
    (spelled : List.Forall₂ (fun source kind => ∃ after, Spells d source after kind) sources kinds) {lead : List Char}
    (isGap : IsGap d true lead) (p : Place) : ∃ ts e, Reads d p (lead ++ text) ts e ∧ ts.map (·.kind) = kinds := by
  induction respaced generalizing kinds lead p with
  | nil =>
    cases spelled
    have ended : skipGap d .outside p (lead ++ []) = .ok (p.afterAll lead, []) := skipGap_append isGap Bool.noConfusion
    exact ⟨[], _, .done ended, rfl⟩
  | @cons source gap text sources isGap' begins between tail ih =>
    cases spelled with
    | @cons _ kind _ kinds first others =>
      obtain ⟨after, spells⟩ := first
      have spells' : Spells d source (gap ++ text) kind := spells.replace (Respaced.replaces begins between tail after)
      have skipped := isGap.skipped _ p spells'.stops
      obtain ⟨ts, e, reads, _, rfl, same⟩ := spells'.reads (P := (· = kinds)) skipped fun p' => ih others isGap' p'
      exact ⟨ts, e, reads, same⟩

/-- With other gaps between them the tokens of a text are read again. -/
theorem Written.respace {lead : List Char} (written : Written d 0 whole ts)
    (sourcesOf : List.Forall₂ (Token.IsWrittenAs whole) ts sources) (isGap : IsGap d true lead)
    (respaced : Respaced d sources text) (p : Place) :
    ∃ ts' e, Reads d p (lead ++ text) ts' e ∧ ts'.map (·.kind) = ts.map (·.kind) := by
  have spelled : List.Forall₂ (fun source kind => ∃ after, Spells d source after kind) sources (ts.map (·.kind)) :=
    written.spelled (List.nil_append _).symm rfl sourcesOf
  exact respaced.reads spelled isGap p

/-! ## The same statement -/

/-- Two texts of the same tokens, each of them written in the second text as in the first one, with other gaps between them. -/
def Respaces (d : Dialect) (sql sql' : String) : Prop :=
  ∃ ts e sources lead text, tokenize d sql = .ok (ts ++ [Token.endAt e]) ∧
    List.Forall₂ (Token.IsWrittenAs sql.toList) ts sources ∧ IsGap d true lead ∧ Respaced d sources text ∧
    sql'.toList = lead ++ text

/-- White space and comments between the tokens make no difference to a statement, apart from the places in it: these are those of
the corresponding tokens. -/
theorem parse_of_respaces {sql sql' : String} {stmt : Statement} (parsed : parse d sql = .ok stmt)
    (respaces : Respaces d sql sql') :
    ∃ ts e ts' e' stmt', tokenize d sql = .ok (ts ++ [Token.endAt e]) ∧ tokenize d sql' = .ok (ts' ++ [Token.endAt e']) ∧
      ts'.map (·.kind) = ts.map (·.kind) ∧ parse d sql' = .ok stmt' ∧ stmt' = { stmt with points := stmt'.points } ∧
      List.Forall₂ (RewritePoint.Moved ts ts') stmt.points stmt'.points := by
  obtain ⟨ts, e, sources, lead, text, tokens, sourcesOf, isGap, respaced, split⟩ := respaces
  have reads : Reads d .start sql.toList ts e := reads_of_tokenize tokens
  obtain ⟨ts', e', reads', kinds⟩ := (written_of_reads reads).respace sourcesOf isGap respaced .start
  rw [← split] at reads'
  obtain ⟨stmt', parsed', same, points⟩ := parse_of_kinds parsed reads reads' kinds
  exact ⟨ts, e, ts', e', stmt', tokens, tokenize_of_reads reads', kinds, parsed', same, points⟩

/-- A difference of a number and a column of a table. -/
def difference (points : List RewritePoint) : Statement :=
  ⟨.select, ⟨[⟨"t", none⟩]⟩, .empty, points, 0, none, [], 0, []⟩

/-- What is skipped before a character is a gap. -/
theorem isGap_of_skipped {gap : List Char} {c : Char} {p q : Place} (skipped : skipGap d .outside p (gap ++ [c]) = .ok (q, [c])) :
    IsGap d true gap := by
  obtain ⟨gap', same, -, isGap⟩ := isGap_of_skipGap skipped
  rwa [List.append_cancel_right same]

/-- With comments behind the number and the sign, the names of the table stand further behind. -/
theorem parse_difference :
    parse .mysql "SELECT 1-t.a FROM t" = .ok (difference [.table ⟨9, 10⟩ "t" none, .table ⟨18, 19⟩ "t" none]) ∧
      Respaces .mysql "SELECT 1-t.a FROM t" "SELECT 1 /* é */ - -- é\n t . a FROM\tt\n" ∧
      ∃ ts ts' stmt', ts'.map (·.kind) = ts.map (·.kind) ∧ parse .mysql "SELECT 1 /* é */ - -- é\n t . a FROM\tt\n" = .ok stmt' ∧
        stmt' = difference [.table ⟨27, 28⟩ "t" none, .table ⟨38, 39⟩ "t" none] ∧
        List.Forall₂ (RewritePoint.Moved ts ts') [.table ⟨9, 10⟩ "t" none, .table ⟨18, 19⟩ "t" none] stmt'.points := by
  have parsed : parse .mysql "SELECT 1-t.a FROM t" = .ok (difference [.table ⟨9, 10⟩ "t" none, .table ⟨18, 19⟩ "t" none]) := by
    have drafted : draft? .mysql "SELECT 1-t.a FROM t" =
        some ({ difference [.table ⟨18, 19⟩ "t" none] with qualifiers := [⟨"t", ⟨9, 10⟩, none⟩] }, 0) := by
      decide +kernel
    exact (parse_of_draft drafted).trans (congrArg Except.ok (by cbv))
  have respaced : parse .mysql "SELECT 1 /* é */ - -- é\n t . a FROM\tt\n" =
      .ok (difference [.table ⟨27, 28⟩ "t" none, .table ⟨38, 39⟩ "t" none]) := by
    have drafted : draft? .mysql "SELECT 1 /* é */ - -- é\n t . a FROM\tt\n" =
        some ({ difference [.table ⟨38, 39⟩ "t" none] with qualifiers := [⟨"t", ⟨27, 28⟩, none⟩] }, 0) := by
      decide +kernel
    exact (parse_of_draft drafted).trans (congrArg Except.ok (by cbv))
  have tokens : tokenize .mysql "SELECT 1-t.a FROM t" = .ok ([⟨.keyword .select, ⟨0, 6⟩, 1, 1⟩, ⟨.integer 1, ⟨7, 8⟩, 1, 8⟩,
      ⟨.symbol .minus, ⟨8, 9⟩, 1, 9⟩, ⟨.identifier "t", ⟨9, 10⟩, 1, 10⟩, ⟨.symbol .dot, ⟨10, 11⟩, 1, 11⟩,
      ⟨.identifier "a", ⟨11, 12⟩, 1, 12⟩, ⟨.keyword .from, ⟨13, 17⟩, 1, 14⟩, ⟨.identifier "t", ⟨18, 19⟩, 1, 19⟩] ++
      [Token.endAt ⟨19, 1, 20⟩]) := by
    decide +kernel
  have respaces : Respaces .mysql "SELECT 1-t.a FROM t" "SELECT 1 /* é */ - -- é\n t . a FROM\tt\n" := by
    have space {c : Char} (blank : isSpace c = true) : IsGap .mysql true [c] := .space blank .nil
    have block : IsGap .mysql true [' ', '/', '*', ' ', 'é', ' ', '*', '/', ' '] :=
      isGap_of_skipped (c := '-') (p := .start) (q := ⟨10, 1, 10⟩) (by decide +kernel)
    have line : IsGap .mysql true [' ', '-', '-', ' ', 'é', '\n', ' '] :=
      isGap_of_skipped (c := 't') (p := .start) (q := ⟨8, 2, 2⟩) (by decide +kernel)
    have apart {c : Char} {gap : List Char} {sources : List (List Char)} (none : c :: gap = []) : sources = [] :=
      absurd none (List.cons_ne_nil c gap)
    have respaced := Respaced.cons ['S', 'E', 'L', 'E', 'C', 'T'] (space (c := ' ') rfl) rfl apart <|
      .cons ['1'] block rfl apart <| .cons ['-'] line rfl apart <| .cons ['t'] (space (c := ' ') rfl) rfl apart <|
      .cons ['.'] (space (c := ' ') rfl) rfl apart <| .cons ['a'] (space (c := ' ') rfl) rfl apart <|
      .cons ['F', 'R', 'O', 'M'] (space (c := '\t') rfl) rfl apart <| .cons ['t'] (space (c := '\n') rfl) rfl apart .nil
    exact ⟨_, _, _, [], _, tokens, by decide +kernel, .nil, respaced, by decide +kernel⟩
  obtain ⟨ts, e, ts', e', stmt', -, -, kinds, parsed', -, points⟩ := parse_of_respaces parsed respaces
  exact ⟨parsed, respaces, ts, ts', stmt', kinds, parsed', Except.ok.inj (parsed'.symm.trans respaced), points⟩

end Sql

end SqlSharding
