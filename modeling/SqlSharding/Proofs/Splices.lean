import SqlSharding.Proofs.Exchanges
import SqlSharding.Proofs.Placeholders

/-!
# Spliced keys

A target that generates a key adds the key's column before one closing parenthesis and its value before another one. So each
edit of a statement still belongs to one token: it replaces the token, or it adds an element to the list that the token closes.
-/

namespace SqlSharding

open Text

/-! ## Signs of a list -/

namespace Sql

variable {d : Dialect} {source r : List Char}

theorem Spells.rightParen (spells : Spells d source r (.symbol .rightParen)) : source = [')'] := by
  obtain ⟨-, c, tail, rfl, front⟩ := spells
  have found : symbol? c (tail ++ r) = some (.rightParen, tail.length) := readAs_of_lexeme (front 0)
  unfold symbol? at found
  split at found <;> simp only [Option.some.injEq, Prod.mk.injEq, reduceCtorEq, false_and, true_and] at found
  rw [List.length_eq_zero_iff.mp found.symm]

/-- The signs of a list are spelled by themselves. -/
theorem spells_listSign {c : Char} {sign : Symbol}
    (isSign : (c, sign) ∈ [(',', Symbol.comma), ('?', .question), (')', .rightParen)]) : Spells d [c] r (.symbol sign) := by
  simp only [List.mem_cons, Prod.mk.injEq, List.not_mem_nil, or_false] at isSign
  rcases isSign with ⟨rfl, rfl⟩ | ⟨rfl, rfl⟩ | ⟨rfl, rfl⟩
  all_goals
    refine ⟨stops_cons_iff.mpr (by simp [isSpace]), _, [], rfl, fun start => ?_⟩
    simp [lexeme, isWordStart, symbol?]

theorem SpellsAll.append {first second : List Char} {kinds kinds' : List TokenKind}
    (spells : SpellsAll d (second ++ r) first kinds) (spells' : SpellsAll d r second kinds') :
    SpellsAll d r (first ++ second) (kinds ++ kinds') := by
  induction spells with
  | @last source kind spells =>
    have joined : SpellsAll d r (source ++ ([] ++ second)) (kind :: kinds') := .next spells (fun r p stops => stops p) spells'
    exact joined
  | next spells gap tail ih =>
    rw [List.append_assoc, List.append_assoc]
    exact .next (by rwa [List.append_assoc]) gap ih

/-- A further element of the list that a parenthesis closes. -/
def Exchange.listed (x : Exchange) : Exchange :=
  ⟨',' :: ' ' :: x.source ++ [')'], .symbol .comma :: x.kinds ++ [.symbol .rightParen]⟩

theorem Exchange.fits_listed {x : Exchange} (spells : ∀ r, SpellsAll d (')' :: r) x.source x.kinds) :
    x.listed.Fits d source (.symbol .rightParen) := by
  intro r r' _ isClosing _
  obtain rfl := isClosing.rightParen
  have closed : SpellsAll d r' (x.source ++ [')']) (x.kinds ++ [.symbol .rightParen]) :=
    (spells r').append (.last (spells_listSign (by decide)))
  have separated : SpellsAll d r' ([','] ++ ([' '] ++ (x.source ++ [')'])))
      (.symbol .comma :: (x.kinds ++ [.symbol .rightParen])) := .next (spells_listSign (by decide)) skipped_space closed
  exact ⟨separated, .of_comma⟩

end Sql

namespace Rewrite

open Sql

/-! ## Edits token by token -/

/-- Edits in strict order are known by their members. -/
theorem eq_of_start_lt {es fs : List Edit} (inOrder : es.Pairwise fun e f => e.span.start < f.span.start)
    (inOrder' : fs.Pairwise fun e f => e.span.start < f.span.start) (same : ∀ e, e ∈ es ↔ e ∈ fs) : es = fs := by
  have nodup {es : List Edit} (ordered : es.Pairwise fun e f => e.span.start < f.span.start) : es.Nodup := by
    refine ordered.imp ?_
    rintro e f before rfl
    exact Nat.lt_irrefl _ before
  exact ((List.perm_ext_iff_of_nodup (nodup inOrder) (nodup inOrder')).mpr same).eq_of_pairwise
    (fun e f _ _ before after => absurd (Nat.lt_trans before after) (Nat.lt_irrefl _)) inOrder inOrder'

/-- An edit of an empty stretch only adds a text. -/
theorem applyFrom_insertion {place position : Nat} {before text : List Char} {addition : String} {es : List Edit}
    (here : position = place + byteLength before) :
    applyFrom place (before ++ text) (⟨⟨position, position⟩, addition⟩ :: es) =
      before ++ addition.toList ++ applyFrom position text es := by
  have cut : applyFrom place (before ++ [] ++ text) (⟨⟨position, position⟩, addition⟩ :: es) = _ := applyFrom_cons here rfl
  rwa [List.append_nil] at cut

/-- What an edit leaves of its token: an addition stands before a closing parenthesis. -/
def Edit.spelling (t : Token) (e : Edit) : List Char :=
  if e.span = t.span then e.replacement.toList else e.replacement.toList ++ [')']

/-- An edit replaces a token, or it adds a text before the closing parenthesis that the token is. -/
def Edit.Alters (t : Token) (e : Edit) : Prop :=
  e.span = t.span ∨ e.span = ⟨t.span.start, t.span.start⟩ ∧ t.kind = .symbol .rightParen

variable {d : Dialect} {p : Place} {start : Nat} {cs : List Char} {ts : List Token} {edit? : Token → Option Edit}

theorem Edit.Alters.start_eq {t : Token} {e : Edit} (alters : e.Alters t) : e.span.start = t.span.start := by
  rcases alters with same | ⟨same, -⟩ <;> rw [same]

theorem filterMap_head_cut (laid : Laid start cs ts) (alters : ∀ t ∈ ts, ∀ e, edit? t = some e → e.Alters t) :
    ∀ e ∈ (ts.filterMap edit?).head?, IsCut start cs e.span.start := by
  intro e first
  obtain ⟨t, member, same⟩ := List.mem_filterMap.mp (List.mem_of_mem_head? first)
  rw [(alters t member e same).start_eq]
  exact (laid.cuts t member).1

/-- Edits that each alter one token give the tokens new spellings. -/
theorem applyFrom_filterMap (written : Written d start cs ts) (alters : ∀ t ∈ ts, ∀ e, edit? t = some e → e.Alters t) :
    applyFrom start cs (ts.filterMap edit?) =
      applyFrom start cs (replacements (fun t => (edit? t).map (Edit.spelling t)) ts) := by
  induction written with
  | done => rfl
  | @next start t ts blank source r begins ends gap spells tail ih =>
    have later := fun u member => alters u (List.mem_cons_of_mem t member)
    have rest := ih later
    have place : start + byteLength (blank ++ source) = t.span.finish := by
      rw [byteLength_append]
      omega
    have cut := filterMap_head_cut tail.laid later
    cases isEdit : edit? t with
    | none =>
      have cut' : ∀ e ∈ (replacements (fun t => (edit? t).map (Edit.spelling t)) ts).head?, IsCut _ r e.span.start :=
        replacements_head_cut tail.laid
      have skipped : replacements (fun t => (edit? t).map (Edit.spelling t)) (t :: ts) =
          replacements (fun t => (edit? t).map (Edit.spelling t)) ts := by simp [replacements, isEdit]
      rw [← place] at cut cut'
      rw [List.filterMap_cons_none isEdit, skipped, applyFrom_append cut, applyFrom_append cut', place, rest]
    | some e =>
      have first : replacements (fun t => (edit? t).map (Edit.spelling t)) (t :: ts) =
          ⟨t.span, String.ofList (e.spelling t)⟩ :: replacements (fun t => (edit? t).map (Edit.spelling t)) ts := by
        simp [replacements, isEdit]
      obtain ⟨span, replacement⟩ := e
      rw [List.filterMap_cons_some isEdit, first, applyFrom_cons begins ends, String.toList_ofList]
      rcases alters t List.mem_cons_self _ isEdit with same | ⟨same, isClosing⟩
      · obtain rfl : span = t.span := same
        rw [applyFrom_cons begins ends, rest, Edit.spelling, if_pos rfl]
      · obtain rfl : span = ⟨t.span.start, t.span.start⟩ := same
        rw [isClosing] at spells
        obtain rfl := spells.rightParen
        have other : (⟨t.span.start, t.span.start⟩ : Span) ≠ t.span := by
          intro same
          have nowhere : t.span.start = t.span.finish := congrArg Span.finish same
          have := byteLength_pos (List.cons_ne_nil ')' [])
          omega
        rw [Edit.spelling, if_neg other, List.append_assoc, applyFrom_insertion begins, applyFrom_append (by rwa [← ends]),
          ← ends, rest]
        simp only [List.append_assoc]

/-! ## Edits of a target -/

namespace Target

variable {points : List RewritePoint} {target : Target} {usesPlaceholder : Bool}

/-- The edit of a token of a statement with the given points. -/
def editOf? (target : Target) (usesPlaceholder : Bool) (points : List RewritePoint) (t : Token) : Option Edit :=
  (target.edits usesPlaceholder points).find? fun e => e.span.start = t.span.start

section Sited

variable (spaced : Spaced ts) (sited : Sited ts points)

include spaced sited

theorem editOf?_eq_some_iff {t : Token} {e : Edit} : target.editOf? usesPlaceholder points t = some e ↔
    (∃ q ∈ points, e ∈ target.editsAt usesPlaceholder q) ∧ e.span.start = t.span.start := by
  have isEdit : (∃ q ∈ points, e ∈ target.editsAt usesPlaceholder q) ↔ e ∈ target.edits usesPlaceholder points := by
    rw [edits, List.mem_mergeSort, List.mem_flatMap]
  rw [isEdit]
  constructor
  · intro found
    exact ⟨List.mem_of_find?_eq_some found, by simpa using List.find?_some found⟩
  · rintro ⟨member, here⟩
    have inOrder := edits_start_lt spaced sited target usesPlaceholder
    cases found : target.editOf? usesPlaceholder points t with
    | none => exact absurd (decide_eq_true here) (List.find?_eq_none.mp found e member)
    | some f =>
      have member' := List.mem_of_find?_eq_some found
      have here' : f.span.start = t.span.start := by simpa using List.find?_some found
      have apart : (target.edits usesPlaceholder points).Pairwise fun e f => e.span.start = f.span.start → e = f :=
        inOrder.imp fun before same => absurd same (Nat.ne_of_lt before)
      have apart' : (target.edits usesPlaceholder points).Pairwise fun e f => f.span.start = e.span.start → f = e :=
        inOrder.imp fun before same => absurd same.symm (Nat.ne_of_lt before)
      exact congrArg some
        (apart.forall_of_forall_of_flip (fun _ _ _ => rfl) apart' member' member (here'.trans here.symm))

/-- Every edit of a statement is that of a token. -/
theorem edits_eq_filterMap :
    target.edits usesPlaceholder points = ts.filterMap (target.editOf? usesPlaceholder points) := by
  refine eq_of_start_lt (edits_start_lt spaced sited target usesPlaceholder) ?_ fun e => ?_
  · refine List.pairwise_filterMap.mpr (spaced.apart.imp_of_mem fun {t u} first _ apart e isFirst f isSecond => ?_)
    rw [((editOf?_eq_some_iff spaced sited).mp isFirst).2, ((editOf?_eq_some_iff spaced sited).mp isSecond).2]
    exact Nat.lt_of_lt_of_le (spaced.nonempty t first) apart
  · rw [edits, List.mem_mergeSort, List.mem_flatMap, List.mem_filterMap]
    constructor
    · rintro ⟨q, inPoints, member⟩
      obtain ⟨t, inText, isOf, -⟩ := editsAt_isOf (sited.stands q inPoints) member
      exact ⟨t, inText, (editOf?_eq_some_iff spaced sited).mpr ⟨⟨q, inPoints, member⟩, isOf.start_eq⟩⟩
    · rintro ⟨t, -, found⟩
      exact ((editOf?_eq_some_iff spaced sited).mp found).1

/-- The point that the edit of a token comes from. -/
theorem exists_of_editOf? {t : Token} (inText : t ∈ ts) {e : Edit}
    (found : target.editOf? usesPlaceholder points t = some e) : ∃ q ∈ points, e ∈ target.editsAt usesPlaceholder q ∧
      e.IsOf t ∧ (q.isKey = false → q.At t) ∧ (q.isKey = true → t.kind = .symbol .rightParen) := by
  obtain ⟨⟨q, inPoints, member⟩, here⟩ := (editOf?_eq_some_iff spaced sited).mp found
  obtain ⟨u, inText', isOf, plain, key⟩ := editsAt_isOf (sited.stands q inPoints) member
  obtain rfl := spaced.eq_of_start inText' inText (isOf.start_eq.symm.trans here)
  exact ⟨q, inPoints, member, isOf, plain, key⟩

theorem editOf?_alters {t : Token} (inText : t ∈ ts) {e : Edit}
    (found : target.editOf? usesPlaceholder points t = some e) : e.Alters t := by
  obtain ⟨q, -, member, isOf, plain, key⟩ := exists_of_editOf? spaced sited inText found
  cases isKey : q.isKey with
  | true => exact isOf.imp_right fun same => ⟨same, key isKey⟩
  | false =>
    obtain ⟨cs, -, rfl⟩ := (mem_editsAt_iff (plain isKey)).mp member
    exact .inl rfl

/-- The edits of a statement give its tokens new spellings. -/
theorem applyFrom_edits (written : Written d start cs ts) : applyFrom start cs (target.edits usesPlaceholder points) =
    applyFrom start cs
      (replacements (fun t => (target.editOf? usesPlaceholder points t).map (Edit.spelling t)) ts) := by
  rw [edits_eq_filterMap spaced sited]
  exact applyFrom_filterMap written fun t inText e found => editOf?_alters spaced sited inText found

/-- The new spelling of a name or a number is that of its point. -/
theorem spelling_editOf? {t : Token} (inText : t ∈ ts) {q : RewritePoint} (member : q ∈ points) (placed : q.At t) :
    (target.editOf? usesPlaceholder points t).map (Edit.spelling t) = target.textAt? q := by
  cases found : target.editOf? usesPlaceholder points t with
  | some e =>
    obtain ⟨r, member', isEdit, -, plain, key⟩ := exists_of_editOf? spaced sited inText found
    have noKey : r.isKey = false := Bool.eq_false_iff.mpr fun isKey => placed.not_symbol _ (key isKey)
    obtain rfl := sited.eq_of_position member' member ((plain noKey).position_eq.trans placed.position_eq.symm)
    obtain ⟨cs, text, rfl⟩ := (mem_editsAt_iff placed).mp isEdit
    rw [text, Option.map_some, Edit.spelling, if_pos rfl, String.toList_ofList]
  | none =>
    symm
    rw [Option.map_none, Option.eq_none_iff_forall_ne_some]
    intro cs text
    have isEdit : ⟨t.span, String.ofList cs⟩ ∈ target.editsAt usesPlaceholder q := (mem_editsAt_iff placed).mpr ⟨cs, text, rfl⟩
    rw [(editOf?_eq_some_iff spaced sited).mpr ⟨⟨q, member, isEdit⟩, rfl⟩] at found
    cases found

end Sited

end Target

/-! ## Exchanges of a target -/

namespace Target

/-- What the value of a generated key is written as: a placeholder, or a literal that spells tokens of the given kinds. -/
def keyValue (key : GeneratedKey) (literal : List TokenKind) (usesPlaceholder : Bool) : Exchange :=
  if usesPlaceholder then ⟨['?'], [.symbol .question]⟩ else ⟨key.value.toSqlLiteral.toList, literal⟩

/-- What a target exchanges for a token because of a point. -/
def exchangeAt? (target : Target) (literal : List TokenKind) (usesPlaceholder : Bool) (t : Token) : RewritePoint → Option Exchange
  | .table span name quote =>
    if span = t.span then (target.physicalTable? name).map fun physical =>
      ⟨(quote.elim physical (·.quote physical)).toList, [quote.elim (.identifier physical) (.quotedIdentifier physical)]⟩
    else none
  | .offset span _ => if span = t.span then target.offset.map fun n => ⟨(toString n.toInt).toList, [.integer n]⟩ else none
  | .rowCount span _ => if span = t.span then target.rowCount.map fun n => ⟨(toString n.toInt).toList, [.integer n]⟩ else none
  | .generatedKey columnsEnd valuesEnd _ => target.generatedKey.bind fun key =>
    if t.span.start = columnsEnd then some (.listed ⟨key.column.toList, [.identifier key.column]⟩)
    else if t.span.start = valuesEnd then some (.listed (keyValue key literal usesPlaceholder))
    else none

/-- What a target exchanges for a token. -/
def exchangeOf? (target : Target) (literal : List TokenKind) (usesPlaceholder : Bool) (points : List RewritePoint) (t : Token) :
    Option Exchange :=
  points.findSome? (target.exchangeAt? literal usesPlaceholder t)

/-- A bound to which a target gives a new number stands here. -/
def IsBound (target : Target) (points : List RewritePoint) (span : Span) (n : Int64) : Prop :=
  ∃ i, .offset span i ∈ points ∧ target.offset = some n ∨ .rowCount span i ∈ points ∧ target.rowCount = some n

variable {points : List RewritePoint} {target : Target} {usesPlaceholder : Bool} {literal : List TokenKind} {t : Token}
  {q : RewritePoint}

theorem exchangeAt?_of_at (placed : q.At t) :
    (target.exchangeAt? literal usesPlaceholder t q).map (·.source) = target.textAt? q := by
  cases q with
  | table span name quote =>
    obtain rfl : span = t.span := placed.1.symm
    rw [exchangeAt?, if_pos rfl, Option.map_map]
    rfl
  | offset span i | rowCount span i =>
    obtain rfl : span = t.span := placed.1.symm
    rw [exchangeAt?, if_pos rfl, Option.map_map]
    rfl
  | generatedKey => cases placed

variable (spaced : Spaced ts) (sited : Sited ts points)

include spaced sited

/-- A name or a number is exchanged at the token of its point. -/
theorem at_of_exchangeAt? (inText : t ∈ ts) (member : q ∈ points) (plain : q.isKey = false) {x : Exchange}
    (exchanged : target.exchangeAt? literal usesPlaceholder t q = some x) : q.At t := by
  obtain ⟨u, inText', placed⟩ := (sited.stands q member).token plain
  have here : u.span = t.span := by
    cases q with
    | table span name quote | offset span i | rowCount span i =>
      have isSpan : span = t.span := by
        by_contra other
        rw [exchangeAt?, if_neg other] at exchanged
        cases exchanged
      exact placed.1.trans isSpan
    | generatedKey => cases plain
  obtain rfl := spaced.eq_of_start inText' inText (congrArg Span.start here)
  exact placed

/-- A target exchanges the names of tables, the bounds of a page and the parentheses of a key. -/
theorem exchanged_cases (inText : t ∈ ts) {x : Exchange} (exchanged : target.exchangeOf? literal usesPlaceholder points t = some x) :
    (∃ name quote physical, .table t.span name quote ∈ points ∧
      t.kind = quote.elim (.identifier name) (.quotedIdentifier name) ∧ target.physicalTable? name = some physical ∧
      x = ⟨(quote.elim physical (·.quote physical)).toList,
        [quote.elim (.identifier physical) (.quotedIdentifier physical)]⟩) ∨
    (∃ i n, t.kind = .integer i ∧ target.IsBound points t.span n ∧ x = ⟨(toString n.toInt).toList, [.integer n]⟩) ∨
    ∃ columnsEnd valuesEnd i key, .generatedKey columnsEnd valuesEnd i ∈ points ∧ target.generatedKey = some key ∧
      target.exchangeAt? literal usesPlaceholder t (.generatedKey columnsEnd valuesEnd i) = some x := by
  obtain ⟨q, member, exchanged⟩ := List.exists_of_findSome?_eq_some exchanged
  cases q with
  | table span name quote =>
    obtain ⟨rfl, isName⟩ := at_of_exchangeAt? spaced sited inText member rfl exchanged
    rw [exchangeAt?, if_pos rfl] at exchanged
    obtain ⟨physical, isPhysical, rfl⟩ := Option.map_eq_some_iff.mp exchanged
    exact .inl ⟨name, quote, physical, member, isName, isPhysical, rfl⟩
  | offset span i =>
    obtain ⟨rfl, isInteger⟩ := at_of_exchangeAt? spaced sited inText member rfl exchanged
    rw [exchangeAt?, if_pos rfl] at exchanged
    obtain ⟨n, isNew, rfl⟩ := Option.map_eq_some_iff.mp exchanged
    exact .inr (.inl ⟨i, n, isInteger, ⟨i, .inl ⟨member, isNew⟩⟩, rfl⟩)
  | rowCount span i =>
    obtain ⟨rfl, isInteger⟩ := at_of_exchangeAt? spaced sited inText member rfl exchanged
    rw [exchangeAt?, if_pos rfl] at exchanged
    obtain ⟨n, isNew, rfl⟩ := Option.map_eq_some_iff.mp exchanged
    exact .inr (.inl ⟨i, n, isInteger, ⟨i, .inr ⟨member, isNew⟩⟩, rfl⟩)
  | generatedKey columnsEnd valuesEnd i =>
    obtain ⟨key, isKey, -⟩ := Option.bind_eq_some_iff.mp exchanged
    exact .inr (.inr ⟨columnsEnd, valuesEnd, i, key, member, isKey, exchanged⟩)

/-- The edit of a token that a target exchanges spells what is exchanged. -/
theorem spelling_of_exchangeAt? (inText : t ∈ ts) (member : q ∈ points) {x : Exchange}
    (exchanged : target.exchangeAt? literal usesPlaceholder t q = some x) :
    (target.editOf? usesPlaceholder points t).map (Edit.spelling t) = some x.source := by
  cases isKey : q.isKey with
  | false =>
    have placed := at_of_exchangeAt? spaced sited inText member isKey exchanged
    rw [spelling_editOf? spaced sited inText member placed, ← exchangeAt?_of_at placed, exchanged, Option.map_some]
  | true =>
    cases q with
    | generatedKey columnsEnd valuesEnd i =>
      obtain ⟨key, isGenerated, exchanged⟩ := Option.bind_eq_some_iff.mp exchanged
      have added (addition : String) (isEdit : .insertion t.span.start addition ∈
          target.editsAt usesPlaceholder (.generatedKey columnsEnd valuesEnd i)) :
          (target.editOf? usesPlaceholder points t).map (Edit.spelling t) = some (addition.toList ++ [')']) := by
        have nonempty := spaced.nonempty t inText
        have other : (⟨t.span.start, t.span.start⟩ : Span) ≠ t.span := by
          intro same
          have := congrArg Span.finish same
          dsimp only at this
          omega
        rw [(editOf?_eq_some_iff spaced sited).mpr ⟨⟨_, member, isEdit⟩, rfl⟩, Option.map_some, Edit.spelling,
          Edit.insertion, if_neg other]
      split at exchanged
      · next here =>
        cases exchanged
        rw [added (", " ++ key.column) (by simp [editsAt, isGenerated, here])]
        simp [Exchange.listed]
      · split at exchanged
        · next here =>
          cases exchanged
          rw [added (", " ++ if usesPlaceholder then "?" else key.value.toSqlLiteral)
            (by simp [editsAt, isGenerated, here])]
          cases usesPlaceholder <;> simp [Exchange.listed, keyValue]
        · cases exchanged
    | _ => cases isKey

/-- The edit of a token spells what the target exchanges for it. -/
theorem spelling_eq_exchange (inText : t ∈ ts) (literal : List TokenKind) :
    (target.editOf? usesPlaceholder points t).map (Edit.spelling t) =
      (target.exchangeOf? literal usesPlaceholder points t).map (·.source) := by
  cases exchanged : target.exchangeOf? literal usesPlaceholder points t with
  | some x =>
    obtain ⟨q, member, exchanged⟩ := List.exists_of_findSome?_eq_some exchanged
    exact spelling_of_exchangeAt? spaced sited inText member exchanged
  | none =>
    rw [exchangeOf?, List.findSome?_eq_none_iff] at exchanged
    rw [Option.map_none, Option.map_eq_none_iff, Option.eq_none_iff_forall_ne_some]
    intro e found
    obtain ⟨q, member, isEdit, isOf, plain, key⟩ := exists_of_editOf? spaced sited inText found
    have nothing := exchanged q member
    cases isKey : q.isKey with
    | false =>
      have placed := plain isKey
      obtain ⟨cs, text, rfl⟩ := (mem_editsAt_iff placed).mp isEdit
      rw [← exchangeAt?_of_at placed, nothing] at text
      cases text
    | true =>
      cases q with
      | generatedKey columnsEnd valuesEnd i =>
        obtain ⟨key, isGenerated, isEdit⟩ := List.mem_flatMap.mp isEdit
        rw [exchangeAt?, Option.mem_toList.mp isGenerated, Option.bind_some] at nothing
        simp only [List.mem_cons, List.not_mem_nil, or_false] at isEdit
        rcases isEdit with rfl | rfl
        · have here : t.span.start = columnsEnd := isOf.start_eq.symm
          rw [if_pos here] at nothing
          cases nothing
        · have here : t.span.start = valuesEnd := isOf.start_eq.symm
          split at nothing <;> cases nothing
      | _ => cases isKey

/-- The edits of a statement exchange its tokens. -/
theorem applyFrom_edits_exchanges {cs : List Char} (written : Written d start cs ts) (literal : List TokenKind) :
    applyFrom start cs (target.edits usesPlaceholder points) =
      applyFrom start cs (exchanges (target.exchangeOf? literal usesPlaceholder points) ts) := by
  have same : replacements (fun t => (target.editOf? usesPlaceholder points t).map (Edit.spelling t)) ts =
      exchanges (target.exchangeOf? literal usesPlaceholder points) ts :=
    List.filterMap_congr fun t inText => congrArg _ (spelling_eq_exchange spaced sited inText literal)
  rw [applyFrom_edits spaced sited written, same]

end Target

end Rewrite

end SqlSharding
