import SqlSharding.Proofs.Runs

/-!
# The tokens that a walk takes

A walk takes some tokens from the front of those that are left. What kind of tokens is shown part by part; the walks over words,
names, values and bounds take no parentheses.
-/

namespace SqlSharding.Sql

/-- What a set of token lists needs to hold of walks in sequence. -/
structure Chained (P : List Token → Prop) : Prop where
  nil : P []
  append : ∀ {ts us}, P ts → P us → P (ts ++ us)

/-- From a current token of a certain kind on, a walk takes tokens of a certain form. -/
def Walk.Takes (d : Dialect) (p : Place) (Pre : TokenKind → Prop) (P : List Token → Prop) (m : Walk α) : Prop :=
  ∀ s a u n rest, Proper rest → s.cursor = .along d p n rest → Pre s.cursor.kind → m s = .ok a u →
    ∃ taken later k, rest = taken ++ later ∧ u.cursor = .along d p k later ∧ P taken

namespace Walk.Takes

variable {d : Dialect} {p : Place} {Pre : TokenKind → Prop} {P : List Token → Prop} {α β σ : Type} {m n : Walk α}

theorem of_stays (chained : Chained P) (stays : ∀ s a t, m s = .ok a t → t = s) : Takes d p Pre P m := by
  intro s a u n rest _ atCursor _ run
  rw [stays s a u run]
  exact ⟨[], rest, n, rfl, atCursor, chained.nil⟩

theorem pure (chained : Chained P) {a : α} : Takes d p Pre P (Pure.pure a) :=
  of_stays chained fun _ _ _ run => (pure_eq_ok_iff.mp run).2.symm

theorem fails (never : Fails m) : Takes d p Pre P m :=
  fun s a u _ _ _ _ _ run => absurd run (never s a u)

/-- Two walks in sequence, of which the first one leaves a current token of a certain kind. -/
theorem followed (chained : Chained P) {f : α → Walk β} {Q : TokenKind → Prop} (first : Takes d p Pre P m)
    (post : ∀ s a t, m s = .ok a t → Q t.cursor.kind) (next : ∀ a, Takes d p Q P (f a)) :
    Takes d p Pre P (m >>= f) := by
  intro s b u n rest proper atCursor pre run
  obtain ⟨a, t, firstRun, nextRun⟩ := bind_eq_ok_iff.mp run
  obtain ⟨taken, mid, k, rfl, atMid, holds⟩ := first s a t n rest proper atCursor pre firstRun
  obtain ⟨taken', later, k', rfl, atLater, holds'⟩ :=
    next a t b u k mid proper.right atMid (post s a t firstRun) nextRun
  exact ⟨taken ++ taken', later, k', by simp, atLater, chained.append holds holds'⟩

theorem bind (chained : Chained P) {f : α → Walk β} (first : Takes d p Pre P m)
    (next : ∀ a, Takes d p (fun _ => True) P (f a)) : Takes d p Pre P (m >>= f) :=
  first.followed chained (fun _ _ _ _ => trivial) next

/-- Looking at the state tells more of where the walk goes on. -/
theorem look {f : α → Walk β} {Q : α → TokenKind → Prop}
    (stays : ∀ s a t, Pre s.cursor.kind → m s = .ok a t → t = s ∧ Q a s.cursor.kind) (next : ∀ a, Takes d p (Q a) P (f a)) :
    Takes d p Pre P (m >>= f) := by
  intro s b u n rest proper atCursor pre run
  obtain ⟨a, t, firstRun, nextRun⟩ := bind_eq_ok_iff.mp run
  obtain ⟨rfl, post⟩ := stays s a t pre firstRun
  exact next a _ b u n rest proper atCursor post nextRun

/-- Looking at the state does not move the walk. -/
theorem seeing {f : α → Walk β} (stays : ∀ s a t, m s = .ok a t → t = s) (next : ∀ a, Takes d p Pre P (f a)) :
    Takes d p Pre P (m >>= f) :=
  look (Q := fun _ => Pre) (fun s a t pre run => ⟨stays s a t run, pre⟩) next

theorem mono {Pre' : TokenKind → Prop} {P' : List Token → Prop} (takes : Takes d p Pre P m)
    (weaker : ∀ c, Pre' c → Pre c) (larger : ∀ ts, P ts → P' ts) : Takes d p Pre' P' m := by
  intro s a u n rest proper atCursor pre run
  obtain ⟨taken, later, k, split, atLater, holds⟩ := takes s a u n rest proper atCursor (weaker _ pre) run
  exact ⟨taken, later, k, split, atLater, larger taken holds⟩

theorem anywhere (takes : Takes d p (fun _ => True) P m) : Takes d p Pre P m := takes.mono (fun _ _ => trivial) fun _ => id

theorem ite {c : Prop} [Decidable c] (yes : c → Takes d p Pre P m) (no : ¬ c → Takes d p Pre P n) :
    Takes d p Pre P (if c then m else n) := by
  split
  · next h => exact yes h
  · next h => exact no h

theorem discards (takes : Takes d p Pre P m) : Takes d p Pre P (discard m) := by
  intro s _ u n rest proper atCursor pre run
  obtain ⟨a, run, -⟩ := map_eq_ok_iff.mp run
  exact takes s a u n rest proper atCursor pre run

theorem maps {g : α → β} (takes : Takes d p Pre P m) : Takes d p Pre P (g <$> m) := by
  intro s _ u n rest proper atCursor pre run
  obtain ⟨a, run, -⟩ := map_eq_ok_iff.mp run
  exact takes s a u n rest proper atCursor pre run

theorem repeatFrom (chained : Chained P) {f : σ → Walk (Bool × σ)}
    (round : ∀ x, Takes d p (fun _ => True) P (f x)) (x : σ) : Takes d p Pre P (repeatFrom x f) := by
  intro s y u n rest proper atCursor _ run
  refine repeatFrom_invariant (J := fun _ u =>
    ∃ taken later k, rest = taken ++ later ∧ u.cursor = .along d p k later ∧ P taken) ?_ run ?_
  · rintro x s r u ⟨taken, mid, k, rfl, atMid, holds⟩ run
    obtain ⟨taken', later, k', rfl, atLater, holds'⟩ := round x s r u k mid proper.right atMid trivial run
    exact ⟨taken ++ taken', later, k', by simp, atLater, chained.append holds holds'⟩
  · exact ⟨[], rest, n, rfl, atCursor, chained.nil⟩

theorem repeatWhile (chained : Chained P) {m : Walk Bool} (round : Takes d p (fun _ => True) P m) :
    Takes d p Pre P (repeatWhile m) := by
  refine repeatFrom chained (fun _ => ?_) ()
  intro s r u n rest proper atCursor pre run
  obtain ⟨again, run, -⟩ := map_eq_ok_iff.mp run
  exact round s again u n rest proper atCursor pre run

theorem advance (chained : Chained P) (one : ∀ t, Pre t.kind → P [t]) : Takes d p Pre P Walk.advance := by
  intro s t u n rest proper atCursor pre run
  obtain ⟨next, step, rfl, rfl⟩ := advance_eq_ok_iff.mp run
  rw [atCursor] at step pre
  cases rest with
  | nil =>
    rw [Cursor.along_step_nil] at step
    cases step
    exact ⟨[], [], n, rfl, rfl, chained.nil⟩
  | cons t rest =>
    rw [Cursor.along_step proper] at step
    cases step
    exact ⟨[t], rest, _, rfl, rfl, one t pre⟩

theorem record (chained : Chained P) {f : Statement → Statement} : Takes d p Pre P (record f) := by
  intro s _ u n rest _ atCursor _ run
  cases run
  exact ⟨[], rest, n, rfl, atCursor, chained.nil⟩

theorem kind {f : TokenKind → Walk β} (next : ∀ k, Takes d p (fun l => l = k ∧ Pre l) P (f k)) :
    Takes d p Pre P (Walk.kind >>= f) :=
  look (Q := fun k l => l = k ∧ Pre l) (by rintro s k t pre ⟨⟩; exact ⟨rfl, rfl, pre⟩) next

theorem check {k : TokenKind} {f : Bool → Walk β}
    (next : ∀ found, Takes d p (fun l => l.sameShape k = found ∧ Pre l) P (f found)) :
    Takes d p Pre P (Walk.check k >>= f) :=
  look (Q := fun found l => l.sameShape k = found ∧ Pre l)
    (by rintro s k t pre ⟨⟩; exact ⟨rfl, rfl, pre⟩) next

theorem checkAny {ks : List TokenKind} {f : Bool → Walk β}
    (next : ∀ found, Takes d p (fun l => ks.any l.sameShape = found ∧ Pre l) P (f found)) :
    Takes d p Pre P (Walk.checkAny ks >>= f) :=
  look (Q := fun found l => ks.any l.sameShape = found ∧ Pre l) (by rintro s k t pre ⟨⟩; exact ⟨rfl, rfl, pre⟩) next

theorem peek {f : TokenKind → Walk β} (next : ∀ k, Takes d p Pre P (f k)) : Takes d p Pre P (Walk.peek >>= f) :=
  seeing (fun _ _ _ run => (peek_eq_ok_iff.mp run).2) next

theorem atLock {f : Bool → Walk β} (next : ∀ found, Takes d p (fun l => (found = true → l.isWord "LOCK" = true) ∧ Pre l) P (f found)) :
    Takes d p Pre P (Walk.atLock >>= f) :=
  look (Q := fun found l => (found = true → l.isWord "LOCK" = true) ∧ Pre l)
    (fun _ _ _ pre run => ⟨(atLock_stays run).1, (atLock_stays run).2, pre⟩) next

theorem atJoin {f : Bool → Walk β}
    (next : ∀ found, Takes d p (fun l => (found = true → ∃ w, l = .keyword w) ∧ Pre l) P (f found)) :
    Takes d p Pre P (Walk.atJoin >>= f) :=
  look (Q := fun found l => (found = true → ∃ w, l = .keyword w) ∧ Pre l)
    (fun _ _ _ pre run => ⟨(atJoin_stays run).1, (atJoin_stays run).2, pre⟩) next

theorem eat (chained : Chained P) {k : TokenKind} (one : ∀ t, t.kind.sameShape k = true → Pre t.kind → P [t]) :
    Takes d p Pre P (Walk.eat k) := by
  refine check fun found => ite (fun h => ?_) fun _ => pure chained
  exact bind chained (discards (advance chained fun t pre => one t (pre.1.trans h) pre.2)) fun _ => pure chained

theorem eatAny (chained : Chained P) {ks : List TokenKind} (one : ∀ t, ks.any t.kind.sameShape = true → P [t]) :
    Takes d p Pre P (Walk.eatAny ks) := by
  refine checkAny fun found => ite (fun h => ?_) fun _ => pure chained
  exact bind chained (discards (advance chained fun t pre => one t (pre.1.trans h))) fun _ => pure chained

theorem skipAll (chained : Chained P) {ks : List TokenKind} (one : ∀ t, ks.any t.kind.sameShape = true → P [t]) :
    Takes d p Pre P (Walk.skipAll ks) :=
  repeatWhile chained (eatAny chained one)

theorem expect (chained : Chained P) {k : TokenKind} (one : ∀ t, t.kind.sameShape k = true → P [t]) :
    Takes d p Pre P (Walk.expect k) :=
  check fun _ => ite (fun h => advance chained fun t pre => one t (pre.1.trans h)) fun _ => fails failExpected_fails

theorem expectAny (chained : Chained P) {ks : List TokenKind} {what : Expectation}
    (one : ∀ t, ks.any t.kind.sameShape = true → P [t]) : Takes d p Pre P (Walk.expectAny ks what) :=
  checkAny fun _ => ite (fun h => advance chained fun t pre => one t (pre.1.trans h)) fun _ => fails failExpected_fails

end Walk.Takes

/-! ## Tokens without parentheses -/

namespace TokenKind

/-- Neither parenthesis. -/
def isPlain (k : TokenKind) : Prop := k ≠ .symbol .leftParen ∧ k ≠ .symbol .rightParen

instance (k : TokenKind) : Decidable k.isPlain := inferInstanceAs (Decidable (_ ∧ _))

variable {k l : TokenKind} {ks : List TokenKind}

theorem isPlain_of_isIdentifier (names : k.isIdentifier = true) : k.isPlain := by
  cases k with
  | identifier | quotedIdentifier => exact ⟨nofun, nofun⟩
  | _ => cases names

theorem isPlain_of_isWord {word : String} (isWord : k.isWord word = true) : k.isPlain := by
  cases k with
  | identifier => exact ⟨nofun, nofun⟩
  | _ => cases isWord

theorem isPlain_of_isKeyword (isKeyword : ∃ w, k = .keyword w) : k.isPlain := by
  obtain ⟨w, rfl⟩ := isKeyword
  exact ⟨nofun, nofun⟩

/-- A token of the shape of a parenthesis is one. -/
theorem isPlain_of_sameShape (same : k.sameShape l = true) (plain : l.isPlain) : k.isPlain := by
  cases k with
  | symbol s =>
    cases l with
    | symbol s' =>
      obtain rfl : s = s' := of_decide_eq_true same
      exact plain
    | _ => cases same
  | _ => exact ⟨nofun, nofun⟩

theorem isPlain_of_any (found : ks.any k.sameShape = true) (plain : ∀ l ∈ ks, l.isPlain) : k.isPlain := by
  obtain ⟨l, member, same⟩ := List.any_eq_true.mp found
  exact isPlain_of_sameShape same (plain l member)

end TokenKind

/-- Tokens without parentheses. -/
def Plain (ts : List Token) : Prop := ∀ t ∈ ts, t.kind.isPlain

theorem plain_chained : Chained Plain where
  nil := nofun
  append first second t member := (List.mem_append.mp member).elim (first t) (second t)

theorem plain_singleton {t : Token} (plain : t.kind.isPlain) : Plain [t] := by
  intro u member
  rwa [List.mem_singleton.mp member]

namespace Walk

variable {d : Dialect} {p : Place} {Pre : TokenKind → Prop}

/-- A token that is no sign is passed. -/
theorem advance_plain (plain : ∀ k, Pre k → k.isPlain) : Takes d p Pre Plain advance :=
  .advance plain_chained fun _ pre => plain_singleton (plain _ pre)

theorem eat_plain {k : TokenKind} (plain : k.isPlain) : Takes d p Pre Plain (eat k) :=
  .eat plain_chained fun _ same _ => plain_singleton (TokenKind.isPlain_of_sameShape same plain)

theorem expect_plain {k : TokenKind} (plain : k.isPlain) : Takes d p Pre Plain (discard (expect k)) :=
  .discards (.expect plain_chained fun _ same => plain_singleton (TokenKind.isPlain_of_sameShape same plain))

section

variable {ks : List TokenKind} (plain : ∀ k ∈ ks, k.isPlain)

include plain

theorem eatAny_plain : Takes d p Pre Plain (eatAny ks) :=
  .eatAny plain_chained fun _ found => plain_singleton (TokenKind.isPlain_of_any found plain)

theorem expectAny_plain {what : Expectation} : Takes d p Pre Plain (discard (expectAny ks what)) :=
  .discards (.expectAny plain_chained fun _ found => plain_singleton (TokenKind.isPlain_of_any found plain))

theorem skipAll_plain : Takes d p Pre Plain (skipAll ks) :=
  .skipAll plain_chained fun _ found => plain_singleton (TokenKind.isPlain_of_any found plain)

end

theorem identifier_plain : Takes d p Pre Plain identifier := by
  refine .kind fun k => .ite (fun names => ?_) fun _ => .fails failExpected_fails
  have passes : Takes d p (fun l => l = k ∧ Pre l) Plain advance :=
    advance_plain fun _ pre => pre.1 ▸ TokenKind.isPlain_of_isIdentifier names
  exact passes.bind plain_chained fun _ => .pure plain_chained

theorem nameParts_plain (first : Identifier) : Takes d p Pre Plain (nameParts first) := by
  refine .repeatFrom plain_chained (fun (parts, _) => ?_) _
  refine .bind plain_chained (eat_plain ⟨nofun, nofun⟩) fun _ => .ite (fun _ => ?_) fun _ => .pure plain_chained
  · refine .kind fun k => .ite (fun names => ?_) fun _ => .ite (fun star => ?_) fun _ => .fails failExpected_fails
    · exact identifier_plain.bind plain_chained fun _ => .pure plain_chained
    · have passes : Takes d p (fun l => l = k ∧ True) Plain advance :=
        advance_plain fun l pre => by rw [pre.1, star]; exact ⟨nofun, nofun⟩
      exact passes.discards.bind plain_chained fun _ => .pure plain_chained

/-- A dotted name takes no parentheses. -/
theorem column_plain : Takes d p Pre Plain column := by
  have records (owner : Identifier) {Pre : TokenKind → Prop} : Takes d p Pre Plain (record (·.addQualifier owner)) :=
    .record plain_chained
  refine identifier_plain.bind plain_chained fun first => (nameParts_plain first).bind plain_chained fun (parts, star) => ?_
  refine .ite (fun _ => ?_) fun _ => ?_
  · cases parts.getLast? with
    | none => exact .pure plain_chained
    | some owner => exact (records owner).bind plain_chained fun _ => .pure plain_chained
  · split
    · exact .pure plain_chained
    · exact .pure plain_chained
    · exact (records _).bind plain_chained fun _ => .pure plain_chained

theorem value?_plain : Takes d p Pre Plain value? := by
  have passes (k : TokenKind) {Pre : TokenKind → Prop} (plain : k.isPlain) (v : Option Operand) :
      Takes d p (fun l => l = k ∧ Pre l) Plain (do discard advance; return v) := by
    have passed : Takes d p (fun l => l = k ∧ Pre l) Plain advance := advance_plain fun l pre => pre.1 ▸ plain
    exact passed.discards.bind plain_chained fun _ => .pure plain_chained
  refine .kind fun k => ?_
  cases k with
  | integer i => exact passes (.integer i) ⟨nofun, nofun⟩ _
  | float x => exact passes (.float x) ⟨nofun, nofun⟩ _
  | string text => exact passes (.string text) ⟨nofun, nofun⟩ _
  | symbol sign =>
    cases sign with
    | question =>
      refine .look (Q := fun _ l => l = .symbol .question ∧ Pre l) ?_ fun _ => passes (.symbol .question) ⟨nofun, nofun⟩ _
      rintro s i t pre ⟨⟩
      exact ⟨rfl, pre⟩
    | minus =>
      have minus : Takes d p (fun l => l = .symbol .minus ∧ Pre l) Plain advance :=
        advance_plain fun l pre => pre.1 ▸ ⟨nofun, nofun⟩
      refine minus.discards.bind plain_chained fun _ => .kind fun k => ?_
      cases k with
      | integer i => exact passes (.integer i) ⟨nofun, nofun⟩ _
      | float x => exact passes (.float x) ⟨nofun, nofun⟩ _
      | _ => exact .pure plain_chained
    | _ => exact .pure plain_chained
  | _ => exact .pure plain_chained

theorem equality?_plain (x : Column) : Takes d p Pre Plain (equality? x) :=
  value?_plain.bind plain_chained fun _ => .pure plain_chained

theorem between?_plain (x : Column) : Takes d p Pre Plain (between? x) := by
  refine value?_plain.bind plain_chained fun lower => ?_
  cases lower with
  | none => exact .pure plain_chained
  | some lower =>
    refine .bind plain_chained (eat_plain (by decide)) fun _ => .ite (fun _ => ?_) fun _ => .pure plain_chained
    exact value?_plain.bind plain_chained fun _ => .pure plain_chained

/-! ## Tables and bounds -/

theorem qualifiedName_plain : Takes d p Pre Plain qualifiedName := by
  refine identifier_plain.bind plain_chained fun first => .bind plain_chained (eat_plain (by decide)) fun _ => ?_
  exact .ite (fun _ => identifier_plain) fun _ => .pure plain_chained

theorem alias?_plain : Takes d p Pre Plain alias? := by
  have named {Pre : TokenKind → Prop} : Takes d p Pre Plain (do return some (← identifier).name) :=
    identifier_plain.bind plain_chained fun _ => .pure plain_chained
  refine .bind plain_chained (eat_plain (by decide)) fun _ => .ite (fun _ => named) fun _ => .kind fun k => ?_
  exact .ite (fun _ => .atLock fun _ => .ite (fun _ => .pure plain_chained) fun _ => named) fun _ => .pure plain_chained

theorem bound_plain : Takes d p Pre Plain bound := by
  refine .look (Q := fun c l => l = c.kind) (by rintro s c t - ⟨⟩; exact ⟨rfl, rfl⟩) fun c => ?_
  generalize c.kind = k
  have passes (plain : k.isPlain) (b : PlacedBound) : Takes d p (· = k) Plain (do discard advance; return b) := by
    have passed : Takes d p (· = k) Plain advance := advance_plain fun _ same => same ▸ plain
    exact passed.discards.bind plain_chained fun _ => .pure plain_chained
  cases k with
  | integer => exact .ite (fun _ => passes ⟨nofun, nofun⟩ _) fun _ => .fails failExpected_fails
  | symbol sign =>
    cases sign with
    | question => exact passes ⟨nofun, nofun⟩ _
    | _ => exact .fails failExpected_fails
  | _ => exact .fails failExpected_fails

theorem recordIf_plain {c : Prop} [Decidable c] {f : Statement → Statement} :
    Takes d p Pre Plain (if c then record f else Pure.pure ()) :=
  .ite (fun _ => .record plain_chained) fun _ => .pure plain_chained

theorem limitClause_plain (isRecorded : Bool) : Takes d p Pre Plain (limitClause isRecorded) := by
  have bounds (first : PlacedBound) : Takes d p (fun _ => True) Plain (limitBounds first) := by
    refine .bind plain_chained (eat_plain (by decide)) fun _ => .ite (fun _ => ?_) fun _ => ?_
    · exact bound_plain.bind plain_chained fun _ => .pure plain_chained
    · refine .bind plain_chained (eat_plain (by decide)) fun _ => .ite (fun _ => ?_) fun _ => .pure plain_chained
      exact bound_plain.bind plain_chained fun _ => .pure plain_chained
  refine .bind plain_chained (expect_plain (by decide)) fun _ => bound_plain.bind plain_chained fun first => ?_
  exact (bounds first).bind plain_chained fun _ => recordIf_plain

theorem offsetFetchEnd_plain (isRecorded : Bool) (offset rowCount : Option PlacedBound) :
    Takes d p Pre Plain (offsetFetchEnd isRecorded offset rowCount) := by
  refine .ite (fun _ => ?_) fun _ => recordIf_plain
  exact .bind plain_chained (.fails failExpected_fails) fun _ => recordIf_plain

theorem offsetFetchClause_plain (isRecorded : Bool) : Takes d p Pre Plain (offsetFetchClause isRecorded) := by
  have fetches (offset : Option PlacedBound) : Takes d p (fun _ => True) Plain (fetchEnd isRecorded offset) := by
    refine .bind plain_chained (eat_plain (by decide)) fun _ => .ite (fun _ => ?_) fun _ =>
      offsetFetchEnd_plain isRecorded offset none
    refine .bind plain_chained (expectAny_plain (by decide)) fun _ => bound_plain.bind plain_chained fun b => ?_
    refine .bind plain_chained (expectAny_plain (by decide)) fun _ => .bind plain_chained (expect_plain (by decide)) fun _ => ?_
    exact offsetFetchEnd_plain isRecorded offset (some b)
  refine .bind plain_chained (eat_plain (by decide)) fun _ => .ite (fun _ => ?_) fun _ => fetches none
  refine bound_plain.bind plain_chained fun b => .bind plain_chained (eatAny_plain (by decide)).discards fun _ => ?_
  exact fetches (some b)

theorem pagination_plain (isRecorded : Bool) : Takes d p Pre Plain (pagination isRecorded) := by
  refine .check fun _ => .ite (fun _ => limitClause_plain isRecorded) fun _ => .checkAny fun _ => .ite (fun _ => ?_) fun _ => ?_
  · refine .seeing (by rintro s c t ⟨⟩; rfl) fun _ => .ite (fun _ => ?_) fun _ => .pure plain_chained
    exact offsetFetchClause_plain isRecorded
  · exact .pure plain_chained

theorem passWord_plain (word : String) : Takes d p Pre Plain (passWord word) := by
  refine .kind fun k => .ite (fun isWord => ?_) fun _ => .pure plain_chained
  have passes : Takes d p (fun l => l = k ∧ Pre l) Plain advance :=
    advance_plain fun _ pre => pre.1 ▸ TokenKind.isPlain_of_isWord isWord
  exact passes.discards.bind plain_chained fun _ => .pure plain_chained

/-- The second word is the one that was seen behind the first one. -/
theorem passTies_plain : Takes d p Pre Plain passTies := by
  intro s _ u n rest proper atCursor pre run
  rcases passTies_eq_ok_iff.mp run with ⟨-, rfl⟩ | ⟨isWith, k, ahead, isTies, x, t, y, first, second⟩
  · exact ⟨[], rest, n, rfl, atCursor, plain_chained.nil⟩
  have isNext : t.cursor.kind = k := Except.ok.inj ((peek_of_advance first).symm.trans ahead)
  have one : Takes d p (· = .keyword .with) Plain advance := advance_plain fun _ same => same ▸ ⟨nofun, nofun⟩
  have two : Takes d p (· = k) Plain advance := advance_plain fun _ same => same ▸ TokenKind.isPlain_of_isWord isTies
  obtain ⟨taken, mid, j, rfl, atMid, plain⟩ := one s x t n rest proper atCursor (TokenKind.sameShape_keyword.mp isWith) first
  obtain ⟨taken', later, i, rfl, atLater, plain'⟩ := two t y u j mid proper.right atMid isNext second
  exact ⟨taken ++ taken', later, i, by simp, atLater, plain_chained.append plain plain'⟩

theorem topEnd_plain (isRecorded : Bool) (rowCount : Option PlacedBound) :
    Takes d p Pre Plain (topEnd isRecorded rowCount) := by
  refine (passWord_plain _).bind plain_chained fun percent => passTies_plain.bind plain_chained fun _ => ?_
  refine .ite (fun _ => ?_) fun _ => .pure plain_chained
  cases rowCount with
  | none => exact .pure plain_chained
  | some b => exact .record plain_chained

/-- A sign that is needed is the token that is passed. -/
theorem expectSymbol_run {sign : Symbol} {s u : WalkState} {x : Unit} {n : Nat} {rest : List Token} (proper : Proper rest)
    (atCursor : s.cursor = .along d p n rest) (run : discard (expect (.symbol sign)) s = .ok x u) :
    ∃ t later, t.kind = .symbol sign ∧ rest = t :: later ∧ u.cursor = .along d p (Cursor.countAfter n (.symbol sign)) later := by
  obtain ⟨t, expects, -⟩ := map_eq_ok_iff.mp run
  obtain ⟨_, _, ⟨⟩, expects⟩ := bind_eq_ok_iff.mp expects
  split at expects
  · next found =>
    obtain ⟨next, step, -, rfl⟩ := advance_eq_ok_iff.mp expects
    rw [atCursor] at found step
    cases rest with
    | nil => cases found
    | cons t rest =>
      have isSign : t.kind = .symbol sign := TokenKind.sameShape_symbol.mp found
      rw [Cursor.along_step proper, isSign] at step
      cases step
      exact ⟨t, rest, isSign, rfl, rfl⟩
  · cases expects

end Walk

end SqlSharding.Sql
