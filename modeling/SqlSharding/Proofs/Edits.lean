import SqlSharding.Proofs.KeyPlaces
import SqlSharding.Rewrite.Target

/-!
# Edits of a statement

Every edit of a statement is the stretch of one token, or an insertion before one, and no two edits belong to one token.
So the edits fit the text, whatever the target asks for.
-/

namespace SqlSharding

namespace Sql

/-! ## Points of a complete statement -/

namespace Statement

variable {α : Type} [DecidableEq α] {xs : List α}

theorem mem_dropRepeated {x : α} : x ∈ dropRepeated xs ↔ x ∈ xs := by
  fun_induction dropRepeated xs with
  | case1 => rfl
  | case2 => rfl
  | case3 y rest ih =>
    rw [ih]
    simp
  | case4 y z rest different ih => rw [List.mem_cons, List.mem_cons, ih]

/-- Elements in order of their keys, of which each one has its own, are in strict order once repeated ones are dropped. -/
theorem dropRepeated_pairwise {key : α → Nat} (sorted : xs.Pairwise fun x y => key x ≤ key y)
    (injective : ∀ x ∈ xs, ∀ y ∈ xs, key x = key y → x = y) : (dropRepeated xs).Pairwise fun x y => key x < key y := by
  fun_induction dropRepeated xs with
  | case1 => exact .nil
  | case2 x => exact List.pairwise_singleton _ x
  | case3 y rest ih =>
    exact ih sorted.tail fun a first b second => injective a (List.mem_cons_of_mem y first) b (List.mem_cons_of_mem y second)
  | case4 y z rest different ih =>
    have inner := ih sorted.tail fun a first b second =>
      injective a (List.mem_cons_of_mem y first) b (List.mem_cons_of_mem y second)
    refine .cons (fun x member => ?_) inner
    have later := mem_dropRepeated.mp member
    have ordered : key y ≤ key z := List.rel_of_pairwise_cons sorted List.mem_cons_self
    have apart : key y ≠ key z := fun same => different (injective y List.mem_cons_self z (by simp) same)
    have further : key z ≤ key x := by
      rcases List.mem_cons.mp later with rfl | tail
      · exact Nat.le_refl _
      · exact List.rel_of_pairwise_cons sorted.tail tail
    omega

theorem mem_sortPoints {points : List RewritePoint} {q : RewritePoint} : q ∈ sortPoints points ↔ q ∈ points := by
  rw [sortPoints, mem_dropRepeated, List.mem_mergeSort]

theorem sortPoints_pairwise {points : List RewritePoint}
    (injective : ∀ q ∈ points, ∀ r ∈ points, q.position = r.position → q = r) :
    (sortPoints points).Pairwise fun q r => q.position < r.position := by
  refine dropRepeated_pairwise ?_ fun q first r second =>
    injective q (List.mem_mergeSort.mp first) r (List.mem_mergeSort.mp second)
  refine (List.pairwise_mergeSort (fun a b c => ?_) (fun a b => ?_) points).imp of_decide_eq_true
  · simp only [decide_eq_true_eq]
    omega
  · simp only [Bool.or_eq_true, decide_eq_true_eq]
    omega

end Statement

/-- What a point stands for in the tokens of a text: a name or a number is a token, and a key is placed by two parentheses. -/
def RewritePoint.StandsIn (ts : List Token) (q : RewritePoint) : Prop :=
  (∃ t ∈ ts, q.At t) ∨ KeyAt ts q

/-- The points of a complete statement: each one stands for tokens of the text, and no two of them begin at one place. -/
structure Sited (ts : List Token) (points : List RewritePoint) : Prop where
  stands : ∀ q ∈ points, q.StandsIn ts
  apart : points.Pairwise fun q r => q.position < r.position
  key : ∀ q ∈ points, ∀ r ∈ points, q.isKey = true → r.isKey = true → q = r

namespace Sited

variable {d : Dialect} {p : Place} {ts : List Token} {points : List RewritePoint} (sited : Sited ts points)

include sited

theorem eq_of_position {q r : RewritePoint} (first : q ∈ points) (second : r ∈ points) (same : q.position = r.position) :
    q = r := by
  have ahead : points.Pairwise fun q r => q.position = r.position → q = r :=
    sited.apart.imp fun before same => absurd same (Nat.ne_of_lt before)
  have behind : points.Pairwise fun q r => r.position = q.position → r = q :=
    sited.apart.imp fun before same => absurd same.symm (Nat.ne_of_lt before)
  exact ahead.forall_of_forall_of_flip (fun _ _ _ => rfl) behind first second same

/-- A point is the only one at its place. -/
theorem find?_eq {q : RewritePoint} (member : q ∈ points) {n : Nat} (here : q.position = n) :
    points.find? (fun r => r.position = n) = some q := by
  cases found : points.find? (fun r => r.position = n) with
  | none => exact absurd (decide_eq_true here) (List.find?_eq_none.mp found q member)
  | some r =>
    have there : r.position = n := by simpa using List.find?_some found
    rw [sited.eq_of_position (List.mem_of_find?_eq_some found) member (there.trans here.symm)]

end Sited

variable {d : Dialect} {p : Place} {ts : List Token}

namespace RewritePoint

theorem At.not_symbol {q : RewritePoint} {t : Token} (placed : q.At t) (sign : Symbol) : t.kind ≠ .symbol sign := by
  intro isSign
  cases q with
  | table span name quote =>
    have := placed.2.symm.trans isSign
    cases quote <;> cases this
  | offset | rowCount => exact nomatch placed.2.symm.trans isSign
  | generatedKey => cases placed

/-- The two parentheses of a key, the second one behind the first one. -/
theorem parentheses_of_keyAt {q : RewritePoint} (placed : KeyAt ts q) :
    ∃ before t between u after i, ts = before ++ t :: between ++ u :: after ∧ t.kind = .symbol .rightParen ∧
      u.kind = .symbol .rightParen ∧ q = .generatedKey t.span.start u.span.start i := by
  cases q with
  | generatedKey columnsEnd valuesEnd i =>
    obtain ⟨head, name, columns, between, verb, row, tail, rfl, -, list, -, -, values⟩ := placed
    obtain ⟨opening, inner, t, rfl, -, -, isClosing, rfl⟩ := list
    obtain ⟨opening', inner', u, rfl, -, -, isClosing', rfl⟩ := values
    exact ⟨head ++ name :: opening :: inner, t, between ++ verb :: opening' :: inner', u, tail, i, by simp, isClosing,
      isClosing', rfl⟩
  | _ => cases placed

theorem StandsIn.token {q : RewritePoint} (stands : q.StandsIn ts) (plain : q.isKey = false) : ∃ t ∈ ts, q.At t := by
  rcases stands with placed | key
  · exact placed
  · obtain ⟨_, _, _, _, _, _, -, -, -, rfl⟩ := parentheses_of_keyAt key
    cases plain

theorem StandsIn.keyAt {q : RewritePoint} (stands : q.StandsIn ts) (key : q.isKey = true) : KeyAt ts q := by
  rcases stands with ⟨t, -, placed⟩ | placed
  · rw [placed.isKey_eq] at key
    cases key
  · exact placed

end RewritePoint

/-- Points that are recorded are sited once the statement is complete. -/
theorem Recorded.sited (spaced : Spaced ts) {s : Statement} {n : Nat} (recorded : Recorded ts [] s)
    {key? : Option RewritePoint} (keys : ∀ q ∈ s.points, q.isKey = true → some q = key?)
    (placed : ∀ key, key? = some key → KeyAt ts key) : Sited ts (s.finish n).points := by
  have origin {q : RewritePoint} (member : q ∈ (s.finish n).points) : q ∈ s.points ∨ ∃ t ∈ ts,
      t.kind.isIdentifier = true ∧ q = .ofTable (.ofToken t) := by
    rcases List.mem_append.mp (Statement.mem_sortPoints.mp member) with old | owner
    · exact .inl old
    · obtain ⟨x, chosen, rfl⟩ := List.mem_map.mp owner
      obtain ⟨t, behind, names, rfl⟩ := recorded.qualifiers x (List.mem_filter.mp chosen).1
      exact .inr ⟨t, behind.member, names, rfl⟩
  have recordedKey {q : RewritePoint} (member : q ∈ (s.finish n).points) (key : q.isKey = true) : some q = key? := by
    rcases origin member with old | ⟨t, -, -, rfl⟩
    · exact keys q old key
    · cases key
  have stands {q : RewritePoint} (member : q ∈ (s.finish n).points) : q.StandsIn ts := by
    by_cases key : q.isKey = true
    · exact .inr (placed q (recordedKey member key).symm)
    · rcases origin member with old | ⟨t, inText, names, rfl⟩
      · obtain ⟨t, behind, standing⟩ := recorded.points q old (Bool.eq_false_iff.mpr key)
        exact .inl ⟨t, behind.member, standing⟩
      · exact .inl ⟨t, inText, RewritePoint.at_ofTable names⟩
  have ofName {t : Token} (inText : t ∈ ts) (names : t.kind.isIdentifier = true) {r : RewritePoint}
      (member : r ∈ (s.finish n).points) (plain : r.isKey = false)
      (same : (RewritePoint.ofTable (.ofToken t)).position = r.position) : .ofTable (.ofToken t) = r := by
    obtain ⟨u, inText', standing⟩ := (stands member).token plain
    have begins := (RewritePoint.at_ofTable names).position_eq.symm.trans (same.trans standing.position_eq)
    obtain rfl := spaced.eq_of_start inText inText' begins
    exact (standing.eq_ofTable names).symm
  have keyApart {q r : RewritePoint} (first : q ∈ (s.finish n).points) (second : r ∈ (s.finish n).points)
      (key : q.isKey = true) (plain : r.isKey = false) : q.position ≠ r.position := by
    intro same
    obtain ⟨before, t, between, u, after, i, split, isClosing, -, rfl⟩ :=
      RewritePoint.parentheses_of_keyAt ((stands first).keyAt key)
    obtain ⟨v, inText, standing⟩ := (stands second).token plain
    have begins : t.span.start = v.span.start := same.trans standing.position_eq
    obtain rfl := spaced.eq_of_start (by simp [split]) inText begins
    exact standing.not_symbol _ isClosing
  have injective : ∀ q ∈ (s.finish n).points, ∀ r ∈ (s.finish n).points, q.position = r.position → q = r := by
    intro q first r second same
    cases key : q.isKey <;> cases key' : r.isKey
    · rcases origin first with old | ⟨t, inText, names, rfl⟩
      · rcases origin second with old' | ⟨t, inText, names, rfl⟩
        · exact recorded.unique q old r old' key key' same
        · exact (ofName inText names first key same.symm).symm
      · exact ofName inText names second key' same
    · exact absurd same.symm (keyApart second first key' key)
    · exact absurd same (keyApart first second key key')
    · exact Option.some.inj ((recordedKey first key).trans (recordedKey second key').symm)
  refine ⟨fun q => stands, Statement.sortPoints_pairwise fun q first r second => ?_, fun q first r second key key' => ?_⟩
  · exact injective q (Statement.mem_sortPoints.mpr first) r (Statement.mem_sortPoints.mpr second)
  · exact Option.some.inj ((recordedKey first key).trans (recordedKey second key').symm)

/-- The points of a text that is a statement. -/
theorem sited_of_parse {sql : String} {stmt : Statement} (parsed : parse d sql = .ok stmt) :
    ∃ p ts, Reads d .start sql.toList ts p ∧ Sited ts stmt.points := by
  obtain ⟨kind, p, ts, n, s, reads, -, run, rfl⟩ := parse_eq_ok_iff.mp parsed
  have spaced := (laid_of_reads reads).spaced
  obtain ⟨key?, keys, placed⟩ := keyed_wholeStatement reads.proper run
  exact ⟨p, ts, reads, (recorded_wholeStatement reads.proper spaced run).sited spaced keys placed⟩

end Sql

/-! ## Edits that fit -/

namespace Rewrite

open Sql

/-- Edits that stand in order, apart from one another and between characters, fit a text. -/
theorem checkFrom_ok {text : List Char} {index previousEnd : Nat} {edits : List Edit}
    (ordered : ∀ e ∈ edits, previousEnd ≤ e.span.start) (apart : edits.Pairwise fun e f => e.span.finish ≤ f.span.start)
    (fits : ∀ e ∈ edits, e.span.start ≤ e.span.finish ∧ IsCut 0 text e.span.start ∧ IsCut 0 text e.span.finish) :
    checkFrom text index previousEnd edits = .ok () := by
  induction edits generalizing index previousEnd with
  | nil => rfl
  | cons e edits ih =>
    obtain ⟨forward, first, last⟩ := fits e List.mem_cons_self
    have isCut {offset : Nat} (cut : IsCut 0 text offset) :
        offset ≤ Text.byteLength text ∧ Text.isBoundary offset text = true := by
      obtain ⟨before, after, rfl, rfl⟩ := cut
      rw [Nat.zero_add]
      exact ⟨by simp, Text.isBoundary_byteLength⟩
    have inOrder := ordered e List.mem_cons_self
    have noFault : editFault? text previousEnd e = none := by
      rw [editFault?, if_neg (by omega), if_neg (by have := (isCut last).1; omega), (isCut first).2, (isCut last).2]
      simpa using inOrder
    rw [checkFrom, noFault]
    exact ih (fun f member => List.rel_of_pairwise_cons apart member) apart.tail fun f member =>
      fits f (List.mem_cons_of_mem e member)

/-- An edit of a token: it replaces the token, or it adds a text before it. -/
def Edit.IsOf (t : Token) (e : Edit) : Prop := e.span = t.span ∨ e.span = ⟨t.span.start, t.span.start⟩

variable {d : Dialect} {p : Place} {ts : List Token}

theorem Edit.IsOf.start_eq {t : Token} {e : Edit} (isOf : e.IsOf t) : e.span.start = t.span.start := by
  rcases isOf with same | same <;> rw [same]

/-- Edits of different tokens are apart. -/
theorem Edit.IsOf.finish_le (spaced : Spaced ts) {t u : Token} {e f : Edit} (first : t ∈ ts) (second : u ∈ ts)
    (isOf : e.IsOf t) (isOf' : f.IsOf u) (before : e.span.start < f.span.start) : e.span.finish ≤ f.span.start := by
  rw [isOf.start_eq, isOf'.start_eq] at before
  rw [isOf'.start_eq]
  have := spaced.nonempty t first
  have := spaced.finish_le first second before
  rcases isOf with same | same <;> rw [same]
  · assumption
  · exact Nat.le_of_lt before

namespace Target

theorem precedes_trans (e f g : Edit) (first : precedes e f = true) (second : precedes f g = true) :
    precedes e g = true := by
  simp only [precedes, Bool.or_eq_true, Bool.and_eq_true, decide_eq_true_eq] at *
  omega

theorem precedes_total (e f : Edit) : (precedes e f || precedes f e) = true := by
  simp only [precedes, Bool.or_eq_true, Bool.and_eq_true, decide_eq_true_eq]
  omega

/-- The tokens that the edits of a point belong to. -/
theorem editsAt_isOf {q : RewritePoint} (stands : q.StandsIn ts) {target : Target} {usesPlaceholder : Bool} {e : Edit}
    (member : e ∈ target.editsAt usesPlaceholder q) :
    ∃ t ∈ ts, e.IsOf t ∧ (q.isKey = false → q.At t) ∧ (q.isKey = true → t.kind = .symbol .rightParen) := by
  cases q with
  | table span name quote =>
    obtain ⟨t, inText, placed⟩ := stands.token rfl
    obtain ⟨physical, -, rfl⟩ := List.mem_map.mp member
    exact ⟨t, inText, .inl placed.1.symm, fun _ => placed, nofun⟩
  | offset span i | rowCount span i =>
    obtain ⟨t, inText, placed⟩ := stands.token rfl
    obtain ⟨n, -, rfl⟩ := List.mem_map.mp member
    exact ⟨t, inText, .inl placed.1.symm, fun _ => placed, nofun⟩
  | generatedKey columnsEnd valuesEnd i =>
    obtain ⟨before, t, between, u, after, i, rfl, isClosing, isClosing', same⟩ :=
      RewritePoint.parentheses_of_keyAt (stands.keyAt rfl)
    cases same
    obtain ⟨key, -, isEdit⟩ := List.mem_flatMap.mp member
    simp only [List.mem_cons, List.not_mem_nil, or_false] at isEdit
    rcases isEdit with rfl | rfl
    · exact ⟨t, by simp, .inr rfl, nofun, fun _ => isClosing⟩
    · exact ⟨u, by simp, .inr rfl, nofun, fun _ => isClosing'⟩

variable {points : List RewritePoint} (spaced : Spaced ts) (sited : Sited ts points) (target : Target)
  (usesPlaceholder : Bool)

include spaced sited

/-- No two edits of a statement begin at one place. -/
theorem edits_start_ne :
    (points.flatMap (target.editsAt usesPlaceholder)).Pairwise fun e f => e.span.start ≠ f.span.start := by
  refine List.pairwise_flatMap.mpr ⟨fun q member => ?_, ?_⟩
  · have single {α β : Type} {R : β → β → Prop} (x : Option α) (f : α → β) : (x.toList.map f).Pairwise R := by
      cases x with
      | none => exact .nil
      | some a => exact List.pairwise_singleton _ _
    cases q with
    | table | offset | rowCount => exact single _ _
    | generatedKey columnsEnd valuesEnd i =>
      obtain ⟨before, t, between, u, after, i, rfl, -, -, same⟩ :=
        RewritePoint.parentheses_of_keyAt ((sited.stands _ member).keyAt rfl)
      cases same
      have ends := (List.pairwise_append.mp spaced.apart).2.2 t (by simp) u (by simp)
      have nonempty := spaced.nonempty t (by simp)
      have different : t.span.start ≠ u.span.start := by omega
      cases key : target.generatedKey with
      | none =>
        rw [editsAt, key]
        exact .nil
      | some key' =>
        rw [editsAt, key]
        simpa [Edit.insertion] using different
  · refine sited.apart.imp_of_mem fun {q r} first second before e inFirst f inSecond same => ?_
    obtain ⟨t, inText, isOf, plain, key⟩ := editsAt_isOf (sited.stands q first) inFirst
    obtain ⟨u, inText', isOf', plain', key'⟩ := editsAt_isOf (sited.stands r second) inSecond
    obtain rfl := spaced.eq_of_start inText inText' (isOf.start_eq.symm.trans (same.trans isOf'.start_eq))
    cases isKey : q.isKey <;> cases isKey' : r.isKey
    · have := (plain isKey).position_eq.trans (plain' isKey').position_eq.symm
      omega
    · exact (plain isKey).not_symbol _ (key' isKey')
    · exact (plain' isKey').not_symbol _ (key isKey)
    · have := congrArg RewritePoint.position (sited.key q first r second isKey isKey')
      omega

/-- The edits of a statement stand in order. -/
theorem edits_start_lt :
    (target.edits usesPlaceholder points).Pairwise fun e f => e.span.start < f.span.start := by
  have sorted : (target.edits usesPlaceholder points).Pairwise fun e f => precedes e f = true :=
    List.pairwise_mergeSort precedes_trans precedes_total _
  have different : (target.edits usesPlaceholder points).Pairwise fun e f => e.span.start ≠ f.span.start :=
    (List.mergeSort_perm _ _).symm.pairwise (edits_start_ne spaced sited target usesPlaceholder) fun h => h.symm
  refine (sorted.and different).imp fun {e f} order => ?_
  have := order.2
  have := order.1
  simp only [precedes, Bool.or_eq_true, Bool.and_eq_true, decide_eq_true_eq] at this
  omega

/-- The edits of a statement stand in order and apart. -/
theorem edits_apart :
    (target.edits usesPlaceholder points).Pairwise fun e f => e.span.finish ≤ f.span.start := by
  refine (edits_start_lt spaced sited target usesPlaceholder).imp_of_mem fun {e f} first second order => ?_
  obtain ⟨q, inPoints, inFirst⟩ := List.mem_flatMap.mp (List.mem_mergeSort.mp first)
  obtain ⟨r, inPoints', inSecond⟩ := List.mem_flatMap.mp (List.mem_mergeSort.mp second)
  obtain ⟨t, inText, isOf, -⟩ := editsAt_isOf (sited.stands q inPoints) inFirst
  obtain ⟨u, inText', isOf', -⟩ := editsAt_isOf (sited.stands r inPoints') inSecond
  exact isOf.finish_le spaced inText inText' isOf' order

omit spaced in
theorem edits_fit {text : List Char} (laid : Laid 0 text ts) {e : Edit} (member : e ∈ target.edits usesPlaceholder points) :
    e.span.start ≤ e.span.finish ∧ IsCut 0 text e.span.start ∧ IsCut 0 text e.span.finish := by
  obtain ⟨q, inPoints, ofPoint⟩ := List.mem_flatMap.mp (List.mem_mergeSort.mp member)
  obtain ⟨t, inText, isOf, -⟩ := editsAt_isOf (sited.stands q inPoints) ofPoint
  obtain ⟨first, last, nonempty⟩ := laid.cuts t inText
  rcases isOf with same | same <;> rw [same]
  · exact ⟨Nat.le_of_lt nonempty, first, last⟩
  · exact ⟨Nat.le_refl _, first, first⟩

omit spaced in
/-- The edits of a statement fit its text. -/
theorem checkEdits_ok {text : List Char} (laid : Laid 0 text ts) :
    checkEdits text (target.edits usesPlaceholder points) = .ok () :=
  checkFrom_ok (fun _ _ => Nat.zero_le _) (edits_apart laid.spaced sited target usesPlaceholder) fun _ member =>
    edits_fit sited target usesPlaceholder laid member

end Target

/-- A statement that was read from a text can be rewritten for every target, and its points are where they should be. -/
theorem rewrites_of_parse {d : Dialect} {sql : String} {stmt : Statement} (parsed : parse d sql = .ok stmt) :
    (∃ p ts, tokenize d sql = .ok (ts ++ [Token.endAt p]) ∧ ∀ q ∈ stmt.points, q.StandsIn ts) ∧
      ∀ target : Target, (∀ usesPlaceholder, checkEdits sql.toList (target.edits usesPlaceholder stmt.points) = .ok ()) ∧
        (∀ parameters, ∃ bound, rewrite sql stmt.points target parameters = .ok bound) ∧
        ∃ text, rewritePlain sql stmt.points target = .ok text := by
  obtain ⟨p, ts, reads, sited⟩ := sited_of_parse parsed
  have fits (target : Target) (usesPlaceholder : Bool) :
      checkEdits sql.toList (target.edits usesPlaceholder stmt.points) = .ok () :=
    Target.checkEdits_ok sited target usesPlaceholder (laid_of_reads reads)
  refine ⟨⟨p, ts, tokenize_of_reads reads, sited.stands⟩, fun target => ⟨fits target, fun parameters => ?_, ?_⟩⟩
  · rw [rewrite, applyEdits, fits]
    exact ⟨_, rfl⟩
  · rw [rewritePlain, applyEdits, fits]
    exact ⟨_, rfl⟩

/-- The locking clause ends at the first closing parenthesis, so the group in the row and then the row end one too early. The index
hint takes the parenthesis that is left. -/
example : (draft? .mysql
    "INSERT INTO t (a) VALUES ((SELECT x FROM u FOR UPDATE OF (y)) ON DUPLICATE KEY UPDATE a = (SELECT 1 FROM v USE INDEX ) (i))").map
      (·.1.points.filter (·.isKey)) = some [.generatedKey 16 60 0] := by decide +kernel

end Rewrite

end SqlSharding
