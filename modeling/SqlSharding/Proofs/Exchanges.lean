import SqlSharding.Proofs.Detached
import SqlSharding.Proofs.Replacements

/-!
# Exchanging tokens

A text in which tokens are exchanged for others reads as the same tokens with the exchanged ones among them, provided each
new spelling spells its token wherever the old one stood.
-/

namespace SqlSharding

open Text

namespace Sql

variable {d : Dialect} {source r r' : List Char}

/-! ## Tokens between gaps -/

/-- A text as tokens between gaps, where it does not matter at which place the text begins. -/
inductive Written (d : Dialect) : Nat → List Char → List Token → Prop
  | done {start : Nat} {cs : List Char} (gap : ∀ p, skipGap d .outside p cs = .ok (p.afterAll cs, [])) : Written d start cs []
  | next {start : Nat} {t : Token} {ts : List Token} (blank source : List Char) {r : List Char}
    (begins : t.span.start = start + byteLength blank) (ends : t.span.finish = t.span.start + byteLength source)
    (gap : Skipped d blank) (spells : Spells d source r t.kind) (tail : Written d t.span.finish r ts) :
    Written d start (blank ++ source ++ r) (t :: ts)

theorem written_of_reads {p e : Place} {cs : List Char} {ts : List Token} (reads : Reads d p cs ts e) :
    Written d p.offset cs ts := by
  induction reads with
  | done gap =>
    refine .done fun p' => ?_
    have isGap := (isGap_of_skipGap_end gap).2
    have skipped := skipGap_append (p := p') isGap fun _ => rfl
    rwa [List.append_nil] at skipped
  | @next p q e cs rest c kind more ts gap front tail ih =>
    have spells := spells_of_gap gap front
    obtain ⟨blank, rfl, rfl, isGap⟩ := isGap_of_skipGap gap
    have split : blank ++ c :: rest = blank ++ (c :: rest.take more) ++ rest.drop more := by simp
    rw [split]
    refine .next blank _ (by simp) ?_ isGap.skipped spells ih
    simp [Place.after_offset, Nat.add_assoc]

theorem Written.laid {start : Nat} {cs : List Char} {ts : List Token} (written : Written d start cs ts) :
    Laid start cs ts := by
  induction written with
  | done => exact .nil
  | next blank source begins ends gap spells tail ih =>
    obtain ⟨-, c, rest, rfl, -⟩ := spells
    exact .cons blank _ (List.cons_ne_nil c rest) begins ends ih

/-- A stretch at the front of a text is tokens of the given kinds, the first one without a gap before it, with the given
text behind them. -/
inductive SpellsAll (d : Dialect) (r : List Char) : List Char → List TokenKind → Prop
  | last {source : List Char} {kind : TokenKind} (spells : Spells d source r kind) : SpellsAll d r source [kind]
  | next {source blank after : List Char} {kind : TokenKind} {kinds : List TokenKind}
    (spells : Spells d source (blank ++ (after ++ r)) kind) (gap : Skipped d blank) (tail : SpellsAll d r after kinds) :
    SpellsAll d r (source ++ (blank ++ after)) (kind :: kinds)

theorem SpellsAll.stops {kinds : List TokenKind} (spells : SpellsAll d r source kinds) : Stops d (source ++ r) := by
  cases spells with
  | last spells => exact spells.stops
  | next spells =>
    have := spells.stops
    simpa only [List.append_assoc] using this

/-- A token behind a gap is read before the tokens that follow it. -/
theorem Spells.reads {kind : TokenKind} {p q : Place} {cs : List Char} {P : List TokenKind → Prop} (spells : Spells d source r kind)
    (skipped : skipGap d .outside p cs = .ok (q, source ++ r))
    (behind : ∀ p', ∃ ts e, Reads d p' r ts e ∧ P (ts.map (·.kind))) :
    ∃ ts e, Reads d p cs ts e ∧ ∃ kinds, P kinds ∧ ts.map (·.kind) = kind :: kinds := by
  obtain ⟨-, c, tail, rfl, front⟩ := spells
  obtain ⟨ts, e, reads, holds⟩ := behind ((q.after c).afterAll tail)
  rw [List.cons_append] at skipped
  refine ⟨_ :: ts, e, .next skipped (front q.offset) ?_, _, holds, rfl⟩
  rwa [List.take_left, List.drop_left]

/-- Tokens behind a gap are read before the tokens that follow them. -/
theorem SpellsAll.reads {kinds : List TokenKind} {P : List TokenKind → Prop} (spells : SpellsAll d r source kinds)
    (behind : ∀ p, ∃ ts e, Reads d p r ts e ∧ P (ts.map (·.kind))) {p q : Place} {cs : List Char}
    (skipped : skipGap d .outside p cs = .ok (q, source ++ r)) :
    ∃ ts e, Reads d p cs ts e ∧ ∃ later, P later ∧ ts.map (·.kind) = kinds ++ later := by
  induction spells generalizing p q cs with
  | last spells => exact spells.reads skipped behind
  | @next source blank after kind kinds spells gap tail ih =>
    rw [List.append_assoc, List.append_assoc] at skipped
    obtain ⟨ts, e, reads, _, ⟨later, holds, rfl⟩, same⟩ := spells.reads skipped
      (P := fun all => ∃ later, P later ∧ all = kinds ++ later) fun p' => ih (gap _ p' tail.stops)
    exact ⟨ts, e, reads, later, holds, same⟩

/-! ## Exchanged tokens -/

/-- What takes the place of a token: a spelling, and the kinds of the tokens that it spells. -/
structure Exchange where
  source : List Char
  kinds : List TokenKind

/-- The edits that exchange tokens. -/
def exchanges (new : Token → Option Exchange) (ts : List Token) : List Rewrite.Edit :=
  Rewrite.replacements (fun t => (new t).map (·.source)) ts

/-- An exchange spells its tokens behind and before texts that resemble each other. A zero must not become a hexadecimal
number. -/
def Exchange.Fits (d : Dialect) (source : List Char) (kind : TokenKind) (x : Exchange) : Prop :=
  ∀ r r', Resembles r r' → Spells d source r kind → (x.source = ['0'] → startsHexadecimal r' = false) →
    SpellsAll d r' x.source x.kinds ∧ Resembles (source ++ r) (x.source ++ r')

/-- An exchange spells its tokens wherever the token stands, and begins with a word. -/
def Exchange.FitsDetached (d : Dialect) (source : List Char) (kind : TokenKind) (x : Exchange) : Prop :=
  startsWord x.source = true ∧
    ∀ r r', Resembles r r' → Spells d source r kind → SpellsAll d r' x.source x.kinds

/-- The kinds of what stands in the place of a token. -/
def exchangedKinds (new : Token → Option Exchange) (t : Token) : List TokenKind := (new t).elim [t.kind] (·.kinds)

/-- Two tokens of a text, one right after the other. -/
def Adjacent (ts : List Token) (t u : Token) : Prop := ∃ before after, ts = before ++ t :: u :: after

theorem noX_of_keyword (k : Keyword) : k.text.toList.head? ≠ some 'X' := by
  have letters {cs : List Char} (first : cs.head? ≠ some 'X') : (String.ofList cs).toList.head? ≠ some 'X' := by
    rwa [String.toList_ofList]
  cases k <;> exact letters (by decide)

/-- A word that begins with an X is a name, and not the word of a locking clause. -/
theorem name_of_x {c : Char} {rest : List Char} {kind : TokenKind} {more : Nat} (isX : c = 'x' ∨ c = 'X')
    (read : wordLexeme d c rest = .token kind more) : kind.isIdentifier = true ∧ kind.isWord "LOCK" = false := by
  obtain ⟨isKind, -⟩ := Lexeme.token.inj read
  cases found : Keyword.ofWord? d (String.ofList (c :: rest.takeWhile isWordPart)) with
  | some k =>
    have upper := List.find?_some found
    have text : k.text.toList = (Text.upper (String.ofList (c :: rest.takeWhile isWordPart))).toList :=
      congrArg String.toList (of_decide_eq_true upper)
    refine absurd ?_ (noX_of_keyword k)
    rw [text, Text.upper, String.toList_map, String.toList_ofList, List.map_cons, List.head?_cons]
    rcases isX with rfl | rfl <;> rfl
  | none =>
    rw [found] at isKind
    rw [← isKind]
    refine ⟨rfl, Bool.eq_false_iff.mpr fun same => ?_⟩
    have letters := sameName_iff.mp same
    rw [String.toList_ofList] at letters
    have first : SameLetter c 'L' := (List.forall₂_cons.mp letters).1
    rcases isX with rfl | rfl <;> exact absurd first (by decide)

/-! ## The text with the exchanged tokens -/

/-- What exchanges ask of a text: every one fits where its token stands, or begins with a word and stands in the place of a detached
token, which has a gap or a sign before it. No name follows a zero. -/
structure Exchangeable (d : Dialect) (whole : List Char) (ts : List Token) (detached : Token → Prop) (new : Token → Option Exchange) :
    Prop where
  fits : ∀ t ∈ ts, ∀ x, new t = some x → ∀ source, slice? t.span.start t.span.finish whole = some source →
    x.Fits d source t.kind ∨ detached t ∧ x.FitsDetached d source t.kind
  apart : ∀ t u, Adjacent ts t u → detached u → t.span.finish = u.span.start → (∃ s, t.kind = .symbol s) ∧ new t = none
  zeros : ∀ t u, Adjacent ts t u → ∀ x, new t = some x → x.source = ['0'] → u.kind.isIdentifier = true →
    u.kind.isWord "LOCK" = true

theorem Adjacent.cons {ts : List Token} {t u v : Token} (adjacent : Adjacent ts t u) : Adjacent (v :: ts) t u := by
  obtain ⟨before, after, rfl⟩ := adjacent
  exact ⟨v :: before, after, rfl⟩

theorem Exchangeable.tail {whole : List Char} {t : Token} {ts : List Token} {detached : Token → Prop} {new : Token → Option Exchange}
    (exchangeable : Exchangeable d whole (t :: ts) detached new) : Exchangeable d whole ts detached new where
  fits u member := exchangeable.fits u (List.mem_cons_of_mem t member)
  apart u v adjacent := exchangeable.apart u v adjacent.cons
  zeros u v adjacent := exchangeable.zeros u v adjacent.cons

theorem slice?_between {before source after : List Char} :
    slice? (byteLength before) (byteLength before + byteLength source) (before ++ source ++ after) = some source := by
  have length : byteLength before + byteLength source - byteLength before = byteLength source := by omega
  simp [slice?, List.append_assoc, splitAt?_byteLength, length]

/-- The source of a token is found in the text at its place. -/
theorem slice?_of_split {whole before blank source after : List Char} {span : Span}
    (split : whole = before ++ (blank ++ source ++ after)) (begins : span.start = byteLength before + byteLength blank)
    (ends : span.finish = span.start + byteLength source) : slice? span.start span.finish whole = some source := by
  have between : slice? (byteLength (before ++ blank)) (byteLength (before ++ blank) + byteLength source)
      (before ++ blank ++ source ++ after) = some source := slice?_between
  rwa [byteLength_append, ← begins, ← ends, List.append_assoc, List.append_assoc, ← List.append_assoc blank,
    ← split] at between

/-- A token that could go on a zero as a hexadecimal number is a name, and not the word of a locking clause. -/
theorem Written.name_of_startsHexadecimal {start : Nat} {ts : List Token} (written : Written d start r ts)
    (starts : startsHexadecimal r = true) :
    ∃ u us, ts = u :: us ∧ u.kind.isIdentifier = true ∧ u.kind.isWord "LOCK" = false := by
  cases r with
  | nil => cases starts
  | cons c rest =>
    have isX : c = 'x' ∨ c = 'X' := by
      simp only [startsHexadecimal, Bool.and_eq_true, Bool.or_eq_true, decide_eq_true_eq] at starts
      exact starts.1
    have isStart : isWordStart c = true := by rcases isX with rfl | rfl <;> decide
    have stops : skipGap d .outside .start (c :: rest) = .ok (.start, c :: rest) := stops_of_isWordStart isStart .start
    generalize text : c :: rest = cs at written stops
    cases written with
    | done gap =>
      have same := Except.ok.inj (stops.symm.trans (gap .start))
      cases text.trans (Prod.mk.inj same).2
    | @next _ t ts blank source r begins ends gap spells tail =>
      rw [List.append_assoc] at stops
      have same := Except.ok.inj (stops.symm.trans (gap _ .start spells.stops))
      have noGap : blank = [] := List.append_left_eq_self.mp (Prod.mk.inj same).2
      obtain ⟨-, c', tail', rfl, front⟩ := spells
      rw [noGap, List.nil_append, List.cons_append] at text
      obtain ⟨rfl, rfl⟩ := List.cons.inj text
      have read := front 0
      rw [lexeme_of_isWordStart isStart] at read
      exact ⟨t, ts, rfl, name_of_x isX read⟩

/-- A text with exchanged tokens resembles the text, or it begins with a word in the place of a detached token. -/
def Resumes (detached : Token → Prop) (start : Nat) (ts : List Token) (cs cs' : List Char) : Prop :=
  Resembles cs cs' ∨ startsWord cs' = true ∧ ∃ t us, ts = t :: us ∧ t.span.start = start ∧ detached t

namespace Exchangeable

variable {whole : List Char} {t : Token} {ts : List Token} {detached : Token → Prop} {new : Token → Option Exchange}
  (exchangeable : Exchangeable d whole (t :: ts) detached new) (resumes : Resumes detached t.span.finish ts r r')

include exchangeable resumes

/-- A token that is not exchanged stays what it is: only a sign has a detached word right behind it. -/
theorem keeps (spells : Spells d source r t.kind) : Spells d source r' t.kind ∧ Resembles (source ++ r) (source ++ r') := by
  rcases resumes with resembles | ⟨word, u, us, rfl, adjoins, isDetached⟩
  · exact ⟨spells.replace (.like resembles), resembles.append source⟩
  · obtain ⟨⟨s, isSign⟩, -⟩ := exchangeable.apart t u ⟨[], us, rfl⟩ isDetached adjoins.symm
    rw [isSign] at spells ⊢
    exact spells.symbol_word word

/-- Behind a token that is exchanged the texts resemble each other. -/
theorem resembles {x : Exchange} (exchanged : new t = some x) : Resembles r r' := by
  rcases resumes with resembles | ⟨-, u, us, rfl, adjoins, isDetached⟩
  · exact resembles
  · rw [(exchangeable.apart t u ⟨[], us, rfl⟩ isDetached adjoins.symm).2] at exchanged
    cases exchanged

end Exchangeable

/-- Tokens behind a gap are read before what is read behind them. -/
theorem SpellsAll.rereads {blank after : List Char} {kinds later : List TokenKind} (spells : SpellsAll d after source kinds)
    (gap : Skipped d blank) (behind : ∀ p, ∃ ts e, Reads d p after ts e ∧ ts.map (·.kind) = later) (p : Place) :
    ∃ ts e, Reads d p (blank ++ (source ++ after)) ts e ∧ ts.map (·.kind) = kinds ++ later := by
  obtain ⟨ts, e, reads, _, rfl, same⟩ := spells.reads (P := (· = later)) behind (gap _ p spells.stops)
  exact ⟨ts, e, reads, same⟩

/-- A text with exchanged tokens reads as these tokens. -/
theorem Written.exchange {whole cs : List Char} {start : Nat} {ts : List Token} {detached : Token → Prop}
    {new : Token → Option Exchange} (written : Written d start cs ts) {before : List Char} (split : whole = before ++ cs)
    (here : start = byteLength before) (exchangeable : Exchangeable d whole ts detached new) :
    Resumes detached start ts cs (Rewrite.applyFrom start cs (exchanges new ts)) ∧
      ∀ p, ∃ ts' e, Reads d p (Rewrite.applyFrom start cs (exchanges new ts)) ts' e ∧
        ts'.map (·.kind) = ts.flatMap (exchangedKinds new) := by
  induction written generalizing before with
  | done gap => exact ⟨.inl (.refl _), fun p => ⟨[], _, .done (gap p), rfl⟩⟩
  | @next start t ts blank source r begins ends gap spells tail ih =>
    obtain ⟨resumes, rereads⟩ := ih (show whole = before ++ blank ++ source ++ r by simp [split])
      (by simp only [byteLength_append]; omega) exchangeable.tail
    cases exchanged : new t with
    | none =>
      have same : exchanges new (t :: ts) = exchanges new ts := by simp [exchanges, Rewrite.replacements, exchanged]
      have cut : ∀ e ∈ (exchanges new ts).head?, IsCut _ r e.span.start := Rewrite.replacements_head_cut tail.laid
      have itself : exchangedKinds new t = [t.kind] := by rw [exchangedKinds, exchanged, Option.elim_none]
      have place : start + byteLength (blank ++ source) = t.span.finish := by
        rw [byteLength_append]
        omega
      rw [← place] at cut
      rw [same, Rewrite.applyFrom_append cut, place, List.append_assoc, List.append_assoc, List.flatMap_cons, itself]
      obtain ⟨spells', resembles⟩ := exchangeable.keeps resumes spells
      exact ⟨.inl (resembles.append blank), (SpellsAll.last spells').rereads gap rereads⟩
    | some x =>
      have first : exchanges new (t :: ts) = ⟨t.span, String.ofList x.source⟩ :: exchanges new ts := by
        simp [exchanges, Rewrite.replacements, exchanged]
      have instead : exchangedKinds new t = x.kinds := by rw [exchangedKinds, exchanged, Option.elim_some]
      have spot : slice? t.span.start t.span.finish whole = some source := slice?_of_split split (here ▸ begins) ends
      have resembles := exchangeable.resembles resumes exchanged
      rw [first, Rewrite.applyFrom_cons begins ends, String.toList_ofList, List.append_assoc, List.append_assoc, List.flatMap_cons,
        instead]
      rcases exchangeable.fits t List.mem_cons_self x exchanged source spot with fits | ⟨isDetached, word, fits⟩
      · obtain ⟨spells', resembles'⟩ := fits r _ resembles spells fun zero => by
          rw [← Bool.not_eq_true]
          intro starts
          obtain ⟨u, us, rfl, names, other⟩ := tail.name_of_startsHexadecimal (resembles.hexadecimal starts)
          rw [exchangeable.zeros t u ⟨[], us, rfl⟩ x exchanged zero names] at other
          cases other
        exact ⟨.inl (resembles'.append blank), spells'.rereads gap rereads⟩
      · refine ⟨?_, (fits r _ resembles spells).rereads gap rereads⟩
        by_cases adjoins : blank = []
        · rw [adjoins] at begins
          rw [adjoins, List.nil_append, List.nil_append]
          exact .inr ⟨startsWord_append word, t, ts, rfl, begins, isDetached⟩
        · exact .inl (gap.resembles adjoins _ _)

end Sql

end SqlSharding
