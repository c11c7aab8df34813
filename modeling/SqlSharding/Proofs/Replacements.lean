import SqlSharding.Proofs.Edits

/-!
# Replaced tokens

A target that generates no key replaces tokens. What stands between the tokens, and the tokens that get no new spelling, are
copied.
-/

namespace SqlSharding.Rewrite

open Sql Text

variable {place start : Nat} {before source text cs cs' : List Char} {es : List Edit} {ts : List Token}
  {new new' : Token → Option (List Char)}

/-! ## Applying edits -/

/-- What stands before the first edit is copied. -/
theorem applyFrom_append (cut : ∀ e ∈ es.head?, IsCut (place + byteLength before) text e.span.start) :
    applyFrom place (before ++ text) es = before ++ applyFrom (place + byteLength before) text es := by
  cases es with
  | nil => rfl
  | cons e es =>
    obtain ⟨first, rest, rfl, starts⟩ := cut e rfl
    have whole : splitAt? (e.span.start - place) (before ++ (first ++ rest)) = some (before ++ first, rest) := by
      have length : e.span.start - place = byteLength (before ++ first) := by
        rw [byteLength_append]
        omega
      rw [length, ← List.append_assoc, splitAt?_byteLength]
    have part : splitAt? (e.span.start - (place + byteLength before)) (first ++ rest) = some (first, rest) := by
      have length : e.span.start - (place + byteLength before) = byteLength first := by omega
      rw [length, splitAt?_byteLength]
    rw [applyFrom, applyFrom, whole, part]
    simp only [Option.getD_some, List.append_assoc]

/-- The stretch of the first edit is replaced. -/
theorem applyFrom_cons {span : Span} {replacement : String} (starts : span.start = place + byteLength before)
    (ends : span.finish = span.start + byteLength source) :
    applyFrom place (before ++ source ++ text) (⟨span, replacement⟩ :: es) =
      before ++ replacement.toList ++ applyFrom span.finish text es := by
  have first : span.start - place = byteLength before := by omega
  have second : span.finish - span.start = byteLength source := by omega
  rw [applyFrom, first, List.append_assoc, splitAt?_byteLength, Option.getD_some]
  dsimp only
  rw [second, splitAt?_byteLength, Option.getD_some]

/-! ## Texts with replaced tokens -/

/-- The edits that give tokens new spellings. -/
def replacements (new : Token → Option (List Char)) (ts : List Token) : List Edit :=
  ts.filterMap fun t => (new t).map fun cs => ⟨t.span, String.ofList cs⟩

/-- Two texts of which the second one has the new spellings in the place of tokens of the first one. -/
inductive Replaced (new : Token → Option (List Char)) : Nat → List Char → List Token → List Char → Prop
  | nil {start : Nat} {cs : List Char} : Replaced new start cs [] cs
  | cons {start : Nat} {t : Token} {ts : List Token} (gap source : List Char) {after after' : List Char}
    (begins : t.span.start = start + byteLength gap) (ends : t.span.finish = t.span.start + byteLength source)
    (tail : Replaced new t.span.finish after ts after') :
    Replaced new start (gap ++ source ++ after) (t :: ts) (gap ++ (new t).getD source ++ after')

theorem Replaced.congr (replaced : Replaced new start cs ts cs') (same : ∀ t ∈ ts, new t = new' t) :
    Replaced new' start cs ts cs' := by
  induction replaced with
  | nil => exact .nil
  | cons gap source begins ends tail ih =>
    rw [same _ List.mem_cons_self]
    exact .cons gap source begins ends (ih fun t member => same t (List.mem_cons_of_mem _ member))

/-- A text is itself with nothing replaced. -/
theorem Replaced.refl (laid : Laid start cs ts) : Replaced (fun _ => none) start cs ts cs := by
  induction laid with
  | nil => exact .nil
  | cons gap source _ begins ends _ ih => exact .cons gap source begins ends ih

theorem replacements_head_cut (laid : Laid start cs ts) : ∀ e ∈ (replacements new ts).head?, IsCut start cs e.span.start := by
  intro e first
  obtain ⟨t, member, same⟩ := List.mem_filterMap.mp (List.mem_of_mem_head? first)
  obtain ⟨x, -, rfl⟩ := Option.map_eq_some_iff.mp same
  exact (laid.cuts t member).1

/-- The first token of a text gets its new spelling, or it is copied. -/
theorem applyFrom_replacements_cons {t : Token} {gap after : List Char} (begins : t.span.start = start + byteLength gap)
    (ends : t.span.finish = t.span.start + byteLength source) (tail : Laid t.span.finish after ts) :
    applyFrom start (gap ++ source ++ after) (replacements new (t :: ts)) =
      gap ++ (new t).getD source ++ applyFrom t.span.finish after (replacements new ts) := by
  cases spelling : new t with
  | none =>
    have same : replacements new (t :: ts) = replacements new ts := by simp [replacements, spelling]
    have place : start + byteLength (gap ++ source) = t.span.finish := by
      rw [byteLength_append]
      omega
    have cut : ∀ e ∈ (replacements new ts).head?, IsCut _ after e.span.start := replacements_head_cut tail
    rw [← place] at cut
    rw [same, applyFrom_append cut, place, Option.getD_none]
  | some cs =>
    have first : replacements new (t :: ts) = ⟨t.span, String.ofList cs⟩ :: replacements new ts := by
      simp [replacements, spelling]
    rw [first, applyFrom_cons begins ends, String.toList_ofList, Option.getD_some]

theorem replaced_applyFrom (laid : Laid start cs ts) : Replaced new start cs ts (applyFrom start cs (replacements new ts)) := by
  induction laid with
  | nil => exact .nil
  | @cons start t ts gap source after nonempty begins ends tail ih =>
    rw [applyFrom_replacements_cons begins ends tail]
    exact .cons gap source begins ends ih

/-- Spans of replacements are those of their tokens. -/
theorem replacements_pairwise (spaced : Spaced ts) :
    (replacements new ts).Pairwise fun e f => e.span.start < f.span.start := by
  refine List.pairwise_filterMap.mpr (spaced.apart.imp_of_mem fun {t u} first _ apart e isFirst f isSecond => ?_)
  obtain ⟨_, -, rfl⟩ := Option.map_eq_some_iff.mp isFirst
  obtain ⟨_, -, rfl⟩ := Option.map_eq_some_iff.mp isSecond
  exact Nat.lt_of_lt_of_le (spaced.nonempty t first) apart

/-! ## Targets without a key -/

/-- The new spelling of the name or the number at a point. -/
def Target.textAt? (target : Target) : RewritePoint → Option (List Char)
  | .table _ name quote => (target.physicalTable? name).map fun physical => (quote.elim physical (·.quote physical)).toList
  | .offset _ _ => target.offset.map fun n => (toString n.toInt).toList
  | .rowCount _ _ => target.rowCount.map fun n => (toString n.toInt).toList
  | .generatedKey _ _ _ => none

/-- The new spelling of a token of a statement with the given points. -/
def Target.textOf? (target : Target) (points : List RewritePoint) (t : Token) : Option (List Char) :=
  (points.find? fun q => q.position = t.span.start).bind target.textAt?

variable {d : Dialect} {p : Place} {points : List RewritePoint} {target : Target} {usesPlaceholder : Bool}

theorem Target.mem_editsAt_iff {q : RewritePoint} {t : Token} (placed : q.At t) {e : Edit} :
    e ∈ target.editsAt usesPlaceholder q ↔ ∃ cs, target.textAt? q = some cs ∧ e = ⟨t.span, String.ofList cs⟩ := by
  cases q with
  | table span name quote =>
    obtain rfl : span = t.span := placed.1.symm
    simp only [editsAt, textAt?, List.mem_map, Option.mem_toList, Option.map_eq_some_iff, exists_exists_and_eq_and,
      String.ofList_toList, eq_comm (a := e)]
  | offset span i | rowCount span i =>
    obtain rfl : span = t.span := placed.1.symm
    simp only [editsAt, textAt?, List.mem_map, Option.mem_toList, Option.map_eq_some_iff, exists_exists_and_eq_and,
      String.ofList_toList, eq_comm (a := e)]
  | generatedKey => cases placed

/-- A target adds no key to a statement: it has none, or the statement has no place for one. -/
def Target.AddsNoKey (target : Target) (points : List RewritePoint) : Prop :=
  target.generatedKey = none ∨ ∀ q ∈ points, q.isKey = false

theorem Target.edits_of_noKey (noKey : target.AddsNoKey points) :
    target.edits usesPlaceholder points = target.edits false points := by
  have same (q : RewritePoint) (member : q ∈ points) : target.editsAt usesPlaceholder q = target.editsAt false q := by
    cases q with
    | generatedKey =>
      rcases noKey with noKey | noPlace
      · rw [editsAt, editsAt, noKey]
        rfl
      · cases noPlace _ member
    | _ => rfl
  rw [edits, edits, List.flatMap_congr same]

theorem Target.bindKey_of_noKey (noKey : target.AddsNoKey points) (parameters : List Value) :
    target.bindKey points parameters = parameters := by
  rw [bindKey]
  split
  · next isSlot isKey =>
    rcases noKey with noKey | noPlace
    · rw [noKey] at isKey
      cases isKey
    · obtain ⟨q, member, found⟩ := List.exists_of_findSome?_eq_some isSlot
      cases q with
      | generatedKey => cases noPlace _ member
      | _ => cases found
  · rfl

/-- Without a key, parameters make no difference to the text and stay as they are. -/
theorem rewrite_of_noKey {sql : String} (noKey : target.AddsNoKey points) (parameters : List Value) :
    rewrite sql points target parameters = (rewritePlain sql points target).map (⟨·, parameters⟩) := by
  rw [rewrite, target.edits_of_noKey noKey, target.bindKey_of_noKey noKey, ite_self, rewritePlain]
  cases applyEdits sql (target.edits false points) <;> rfl

/-- A target without a key gives new spellings to tokens. -/
theorem Target.edits_eq (spaced : Spaced ts) (sited : Sited ts points) (noKey : target.generatedKey = none) :
    target.edits usesPlaceholder points = replacements (target.textOf? points) ts := by
  have inOrder := edits_start_lt spaced sited target usesPlaceholder
  have inOrder' : (replacements (target.textOf? points) ts).Pairwise fun e f => e.span.start < f.span.start :=
    replacements_pairwise spaced
  have nodup {es : List Edit} (ordered : es.Pairwise fun e f => e.span.start < f.span.start) : es.Nodup := by
    refine ordered.imp ?_
    rintro e f before rfl
    exact Nat.lt_irrefl _ before
  have perm : (target.edits usesPlaceholder points).Perm (replacements (target.textOf? points) ts) := by
    refine (List.perm_ext_iff_of_nodup (nodup inOrder) (nodup inOrder')).mpr fun e => ⟨fun member => ?_, fun member => ?_⟩
    · obtain ⟨q, inPoints, ofPoint⟩ := List.mem_flatMap.mp (List.mem_mergeSort.mp member)
      have plain : q.isKey = false := by
        cases q with
        | generatedKey =>
          rw [editsAt, noKey] at ofPoint
          cases ofPoint
        | _ => rfl
      obtain ⟨t, inText, placed⟩ := (sited.stands q inPoints).token plain
      obtain ⟨cs, spelling, rfl⟩ := (mem_editsAt_iff placed).mp ofPoint
      refine List.mem_filterMap.mpr ⟨t, inText, ?_⟩
      rw [textOf?, sited.find?_eq inPoints placed.position_eq, Option.bind_some, spelling]
      rfl
    · obtain ⟨t, inText, same⟩ := List.mem_filterMap.mp member
      obtain ⟨cs, spelling, rfl⟩ := Option.map_eq_some_iff.mp same
      obtain ⟨q, found, spelled⟩ := Option.bind_eq_some_iff.mp spelling
      have inPoints := List.mem_of_find?_eq_some found
      have here : q.position = t.span.start := by simpa using List.find?_some found
      have plain : q.isKey = false := by
        cases q with
        | generatedKey => cases spelled
        | _ => rfl
      obtain ⟨u, inText', placed⟩ := (sited.stands q inPoints).token plain
      obtain rfl := spaced.eq_of_start inText' inText (placed.position_eq.symm.trans here)
      exact List.mem_mergeSort.mpr (List.mem_flatMap.mpr ⟨q, inPoints, (mem_editsAt_iff placed).mpr ⟨cs, spelled, rfl⟩⟩)
  exact perm.eq_of_pairwise (fun e f _ _ before after => absurd (Nat.lt_trans before after) (Nat.lt_irrefl _)) inOrder inOrder'

end SqlSharding.Rewrite
