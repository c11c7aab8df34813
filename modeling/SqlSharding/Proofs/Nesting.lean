import SqlSharding.Proofs.Taking

/-!
# Parentheses in what a walk takes

The readers of expressions, conditions, tables and queries take every opening parenthesis with its counterpart. Two parts of a
text they pass without counting parentheses: a locking clause up to the first closing parenthesis, whatever that one closes, and
an index hint up to the first opening one. So what is said of the parentheses is said of tokens without such parts.
-/

namespace SqlSharding.Sql

/-- How many parentheses are open behind a token if so many are open before it. There is no answer if it closes one that is not
open. -/
def TokenKind.openAfter (n : Nat) (k : TokenKind) : Option Nat :=
  if k = symbol .leftParen then some (n + 1)
  else if k = symbol .rightParen then if n = 0 then none else some (n - 1)
  else some n

/-- How many parentheses are open behind some tokens if so many are open before them. -/
def openAfter (n : Nat) (ts : List Token) : Option Nat := ts.foldlM (fun n t => t.kind.openAfter n) n

/-- Tokens in which every parenthesis has its counterpart. -/
def Enclosed (ts : List Token) : Prop := openAfter 0 ts = some 0

/-- Whether a token begins neither a locking clause nor an index hint. -/
def TokenKind.isTame (k : TokenKind) : Bool :=
  k ∉ [keyword .for, keyword .use, keyword .ignore, keyword .force] && !k.isWord "LOCK"

/-- Tokens without locking clauses and index hints. -/
def Tame (ts : List Token) : Prop := ∀ t ∈ ts, t.kind.isTame = true

theorem openAfter_cons (n : Nat) (t : Token) (ts : List Token) :
    openAfter n (t :: ts) = (t.kind.openAfter n).bind fun m => openAfter m ts :=
  List.foldlM_cons

theorem openAfter_append (n : Nat) (ts us : List Token) :
    openAfter n (ts ++ us) = (openAfter n ts).bind fun m => openAfter m us :=
  List.foldlM_append

/-- Behind some tokens so many parentheses are open, if so many are open before them and the tokens are tame. -/
def Nests (a b : Nat) (ts : List Token) : Prop := Tame ts → openAfter a ts = some b

namespace Nests

variable {a b c : Nat} {t : Token} {ts us : List Token}

theorem nil : Nests a a [] := fun _ => rfl

theorem append (first : Nests a b ts) (second : Nests b c us) : Nests a c (ts ++ us) := by
  intro tame
  rw [openAfter_append, first fun t member => tame t (List.mem_append_left us member)]
  exact second fun t member => tame t (List.mem_append_right ts member)

theorem chained : Chained (Nests a a) := ⟨nil, append⟩

theorem opening (opens : t.kind = .symbol .leftParen) : Nests a (a + 1) [t] := by
  intro _
  rw [openAfter_cons, TokenKind.openAfter, if_pos opens]
  rfl

theorem closing (closes : t.kind = .symbol .rightParen) : Nests (a + 1) a [t] := by
  intro _
  rw [openAfter_cons, TokenKind.openAfter, if_neg (closes ▸ nofun), if_pos closes, if_neg (Nat.succ_ne_zero a)]
  rfl

theorem of_plain (plain : Plain ts) : Nests a a ts := by
  induction ts with
  | nil => exact nil
  | cons t ts ih =>
    intro tame
    obtain ⟨notOpening, notClosing⟩ := plain t List.mem_cons_self
    rw [openAfter_cons, TokenKind.openAfter, if_neg notOpening, if_neg notClosing]
    exact ih (fun u member => plain u (List.mem_cons_of_mem t member)) fun u member => tame u (List.mem_cons_of_mem t member)

/-- What follows an untamed token is not looked at. -/
theorem of_untamed (untamed : ¬ Tame ts) : Nests a b (ts ++ us) :=
  fun tame => absurd (fun t member => tame t (List.mem_append_left us member)) untamed

end Nests

namespace Walk

variable {d : Dialect} {p : Place} {Pre : TokenKind → Prop} {α β : Type} {m : Walk α} {a b c : Nat}

namespace Takes

theorem plainly (plain : Takes d p Pre Plain m) : Takes d p Pre (Nests a a) m := plain.mono (fun _ => id) fun _ => .of_plain

/-- Two walks in sequence, between which parentheses may be open. -/
theorem seq {f : α → Walk β} (first : Takes d p Pre (Nests a b) m) (next : ∀ x, Takes d p (fun _ => True) (Nests b c) (f x)) :
    Takes d p Pre (Nests a c) (m >>= f) := by
  intro s y u n rest proper atCursor pre run
  obtain ⟨x, t, firstRun, nextRun⟩ := bind_eq_ok_iff.mp run
  obtain ⟨taken, mid, k, rfl, atMid, nests⟩ := first s x t n rest proper atCursor pre firstRun
  obtain ⟨taken', later, k', rfl, atLater, nests'⟩ := next x t y u k mid proper.right atMid trivial nextRun
  exact ⟨taken ++ taken', later, k', by simp, atLater, nests.append nests'⟩

/-- What follows a token that is passed if it is there. -/
theorem eatThen {k : TokenKind} {P : List Token → Prop} {f : Bool → Walk β}
    (yes : Takes d p (fun l => l.sameShape k = true ∧ Pre l) P (discard Walk.advance >>= fun _ => f true))
    (no : Takes d p Pre P (f false)) : Takes d p Pre P (Walk.eat k >>= f) := by
  have same : Walk.eat k >>= f = Walk.check k >>= fun found =>
      if found = true then discard Walk.advance >>= fun _ => f true else f false := by
    simp only [Walk.eat, bind_assoc, ite_bind, pure_bind]
  rw [same]
  exact .check fun found => .ite (fun h => yes.mono (fun _ pre => ⟨pre.1.trans h, pre.2⟩) fun _ => id) fun _ =>
    no.mono (fun _ pre => pre.2) fun _ => id

theorem eatAnyThen {ks : List TokenKind} {P : List Token → Prop} {f : Bool → Walk β}
    (yes : Takes d p (fun l => ks.any l.sameShape = true ∧ Pre l) P (discard Walk.advance >>= fun _ => f true))
    (no : Takes d p Pre P (f false)) : Takes d p Pre P (Walk.eatAny ks >>= f) := by
  have same : Walk.eatAny ks >>= f = Walk.checkAny ks >>= fun found =>
      if found = true then discard Walk.advance >>= fun _ => f true else f false := by
    simp only [Walk.eatAny, bind_assoc, ite_bind, pure_bind]
  rw [same]
  exact .checkAny fun found => .ite (fun h => yes.mono (fun _ pre => ⟨pre.1.trans h, pre.2⟩) fun _ => id) fun _ =>
    no.mono (fun _ pre => pre.2) fun _ => id

theorem nothing {x : α} : Takes d p Pre (Nests a a) (Pure.pure x) := .pure Nests.chained

theorem anything {m : Walk α} (keeps : ∀ ts, Proper ts → Keeps (fun s => s.cursor.Within d p ts) m) :
    Takes d p Pre (fun _ => True) m := by
  intro s x u n rest proper atCursor _ run
  obtain ⟨k, later, ⟨taken, rfl⟩, atLater⟩ := keeps rest proper s x u run ⟨n, rest, List.suffix_refl rest, atCursor⟩
  exact ⟨taken, later, k, rfl, atLater, trivial⟩

/-- Behind an untamed token a walk may take anything. -/
theorem untamed {f : α → Walk β} (first : Takes d p Pre (fun ts => ¬ Tame ts) m)
    (next : ∀ x, Takes d p (fun _ => True) (fun _ => True) (f x)) : Takes d p Pre (Nests a b) (m >>= f) := by
  intro s y u n rest proper atCursor pre run
  obtain ⟨x, t, firstRun, nextRun⟩ := bind_eq_ok_iff.mp run
  obtain ⟨taken, mid, k, rfl, atMid, isUntamed⟩ := first s x t n rest proper atCursor pre firstRun
  obtain ⟨taken', later, k', rfl, atLater, -⟩ := next x t y u k mid proper.right atMid trivial nextRun
  exact ⟨taken ++ taken', later, k', by simp, atLater, .of_untamed isUntamed⟩

end Takes

/-! ## Single tokens -/

/-- A token that is there is passed. -/
theorem advance_one {P : List Token → Prop} (inside : ¬ Pre .endOfInput) (one : ∀ t, Pre t.kind → P [t]) :
    Takes d p Pre P advance := by
  intro s t u n rest proper atCursor pre run
  obtain ⟨next, step, rfl, rfl⟩ := advance_eq_ok_iff.mp run
  rw [atCursor] at step pre
  cases rest with
  | nil => exact absurd pre inside
  | cons t rest =>
    rw [Cursor.along_step proper] at step
    cases step
    exact ⟨[t], rest, _, rfl, rfl, one t pre⟩

theorem advance_opening (opens : ∀ k, Pre k → k = .symbol .leftParen) : Takes d p Pre (Nests a (a + 1)) (discard advance) :=
  .discards (advance_one (fun atEnd => nomatch opens _ atEnd) fun _ pre => .opening (opens _ pre))

theorem advance_closing (closes : ∀ k, Pre k → k = .symbol .rightParen) : Takes d p Pre (Nests (a + 1) a) (discard advance) :=
  .discards (advance_one (fun atEnd => nomatch closes _ atEnd) fun _ pre => .closing (closes _ pre))

theorem expect_opening : Takes d p Pre (Nests a (a + 1)) (discard (expect (.symbol .leftParen))) := by
  refine .discards (.check fun _ => .ite (fun found => ?_) fun _ => .fails failExpected_fails)
  have isOpening {k : TokenKind} (pre : k.sameShape (.symbol .leftParen) = _ ∧ Pre k) : k = .symbol .leftParen :=
    TokenKind.sameShape_symbol.mp (pre.1.trans found)
  exact advance_one (fun atEnd => nomatch isOpening atEnd) fun _ pre => .opening (isOpening pre)

theorem expect_closing : Takes d p Pre (Nests (a + 1) a) (discard (expect (.symbol .rightParen))) := by
  refine .discards (.check fun _ => .ite (fun found => ?_) fun _ => .fails failExpected_fails)
  have isClosing {k : TokenKind} (pre : k.sameShape (.symbol .rightParen) = _ ∧ Pre k) : k = .symbol .rightParen :=
    TokenKind.sameShape_symbol.mp (pre.1.trans found)
  exact advance_one (fun atEnd => nomatch isClosing atEnd) fun _ pre => .closing (isClosing pre)

/-! ## Parts that are passed over -/

/-- Parentheses are closed from a depth on that is not zero, or from an opening one on. -/
theorem closeParentheses_nests (n : Nat) {atEnd : Walk Unit} (fails : Fails atEnd) :
    Takes d p (fun k => n ≠ 0 ∨ k = .symbol .leftParen) (Nests (n + a) a) (closeParentheses n atEnd) := by
  refine .discards fun s m u i rest proper atCursor pre run => ?_
  let Taken (x : Nat) (u : WalkState) : Prop :=
    ∃ taken later k, rest = taken ++ later ∧ u.cursor = .along d p k later ∧ Nests (n + a) (x + a) taken
  -- one round takes one token and leaves the depth behind it
  have round (x : Nat) (s : WalkState) (r : Bool × Nat) (t : WalkState)
      (before : Taken x s ∧ (x ≠ 0 ∨ s.cursor.kind = .symbol .leftParen)) (run : (do
        if ← isAtEnd then
          atEnd
          return (false, x)
        else
          let after := depthAfter x (← kind)
          discard advance
          return (after ≠ 0, after)) s = .ok r t) : Taken r.2 t ∧ r.1 = decide (r.2 ≠ 0) := by
    obtain ⟨⟨taken, later, k, rfl, atLater, nests⟩, within⟩ := before
    obtain ⟨ended, _, ⟨⟩, run⟩ := bind_eq_ok_iff.mp run
    split at run
    · obtain ⟨_, t, impossible, -⟩ := bind_eq_ok_iff.mp run
      exact absurd impossible (fails _ _ _)
    · next inside =>
      obtain ⟨_, _, ⟨⟩, run⟩ := bind_eq_ok_iff.mp run
      obtain ⟨_, t, passes, ending⟩ := bind_eq_ok_iff.mp run
      obtain ⟨rfl, rfl⟩ := pure_eq_ok_iff.mp ending
      have one : Takes d p (· = s.cursor.kind) (Nests (x + a) (depthAfter x s.cursor.kind + a)) advance := by
        refine advance_one (fun atEnd => inside (decide_eq_true atEnd.symm)) fun t same => ?_
        rw [depthAfter, ← same]
        split
        · next opens =>
          rw [Nat.add_right_comm]
          exact .opening opens
        · next notOpening =>
          split
          · next closes =>
            have : x ≠ 0 := within.resolve_right fun opens => notOpening (same.trans opens)
            obtain ⟨y, rfl⟩ := Nat.exists_eq_succ_of_ne_zero this
            rw [Nat.succ_sub_one, Nat.succ_add]
            exact .closing closes
          · next notClosing => exact .of_plain (plain_singleton ⟨notOpening, notClosing⟩)
      obtain ⟨x, advances, -⟩ := map_eq_ok_iff.mp passes
      obtain ⟨taken', rest', k', rfl, atRest, nests'⟩ := one _ _ _ _ _ proper.right atLater rfl advances
      exact ⟨⟨taken ++ taken', rest', k', by simp, atRest, nests.append nests'⟩, rfl⟩
  have ended := repeatFrom_induction
    (J := fun x s => Taken x s ∧ (x ≠ 0 ∨ s.cursor.kind = .symbol .leftParen)) (K := fun x s => Taken x s ∧ x = 0)
    (fun x s y t before run => ?_) (fun x s y t before run => ?_) run
    ⟨⟨[], rest, i, rfl, atCursor, .nil⟩, pre⟩
  · obtain ⟨⟨taken, later, k, split, atLater, nests⟩, rfl⟩ := ended
    exact ⟨taken, later, k, split, atLater, by simpa using nests⟩
  · obtain ⟨taken, goesOn⟩ := round x s _ t before run
    exact ⟨taken, .inl (of_decide_eq_true goesOn.symm)⟩
  · obtain ⟨taken, stops⟩ := round x s _ t before run
    exact ⟨taken, by simpa using stops⟩

theorem skipParentheses_nests : Takes d p Pre (Nests a a) skipParentheses := by
  refine .check fun found => .ite (fun isGroup => ?_) fun _ => .nothing
  refine .seeing (by rintro s c t ⟨⟩; rfl) fun c => ?_
  have closes : Takes d p (fun k => 0 ≠ 0 ∨ k = .symbol .leftParen) (Nests (0 + a) a)
      (closeParentheses 0 (failAt c.current .unbalancedParentheses)) := closeParentheses_nests 0 failAt_fails
  rw [Nat.zero_add] at closes
  exact closes.mono (fun _ pre => .inr (TokenKind.sameShape_symbol.mp (pre.1.trans isGroup))) fun _ => id

/-- A group behind `TOP` is a bound, an expression that begins with one, or anything else. -/
theorem topGroup_nests : Takes d p (· = .symbol .leftParen) (Nests a a) topGroup := by
  refine .peek fun k => .ite (fun _ => ?_) fun _ => skipParentheses_nests.seq fun _ => .nothing
  refine (advance_opening fun _ => id).seq fun _ => bound_plain.plainly.seq fun b => .eatThen ?_ ?_
  · exact (advance_closing fun _ pre => TokenKind.sameShape_symbol.mp pre.1).seq fun _ => .nothing
  · have closes : Takes d p (fun k => 1 ≠ 0 ∨ k = .symbol .leftParen) (Nests (1 + a) a)
        (closeParentheses 1 (failExpected (.token (.symbol .rightParen)))) := closeParentheses_nests 1 failExpected_fails
    rw [Nat.add_comm] at closes
    exact (closes.mono (fun _ _ => .inl Nat.one_ne_zero) fun _ => id).seq fun _ => .nothing

theorem topClause_nests (isRecorded : Bool) : Takes d p Pre (Nests a a) (topClause isRecorded) := by
  rw [topClause_eq]
  have ending (rowCount : Option PlacedBound) : Takes d p (fun _ => True) (Nests a a) (topEnd isRecorded rowCount) :=
    (topEnd_plain isRecorded rowCount).plainly
  refine (expect_plain (by decide)).plainly.seq fun _ => .check fun _ => .ite (fun isGroup => ?_) fun _ => ?_
  · exact (topGroup_nests.mono (fun _ pre => TokenKind.sameShape_symbol.mp (pre.1.trans isGroup)) fun _ => id).seq ending
  · exact (Takes.maps bound_plain.plainly).seq ending

/-! ## Parts in which parentheses are not counted -/

theorem untamed_singleton {t : Token} (untamed : t.kind.isTame = false) : ¬ Tame [t] := fun tame => by
  rw [tame t List.mem_cons_self] at untamed
  cases untamed

/-- A locking clause that is passed begins with an untamed word. -/
theorem lockingClause_nests : Takes d p Pre (Nests a a) lockingClause := by
  have clause : Takes d p (fun k => k.isTame = false) (Nests a a) (repeatWhile do
      if (← kind).endsEverything then return false
      else
        discard advance
        return true) := by
    intro s _ u n rest proper atCursor untamed run
    have ended := repeatFrom_invariant (J := fun _ u => ∃ taken later k, rest = taken ++ later ∧
      u.cursor = .along d p k later ∧ (taken = [] ∧ u.cursor.kind.isTame = false ∨ ¬ Tame taken)) ?_ run
      ⟨[], rest, n, rfl, atCursor, .inl ⟨rfl, untamed⟩⟩
    · obtain ⟨taken, later, k, split, atLater, ⟨rfl, -⟩ | isUntamed⟩ := ended
      · exact ⟨[], later, k, split, atLater, .nil⟩
      · exact ⟨taken, later, k, split, atLater, fun tame => absurd tame isUntamed⟩
    · rintro _ s r u ⟨taken, later, k, rfl, atLater, began⟩ round
      obtain ⟨again, body, -⟩ := map_eq_ok_iff.mp round
      clear round
      obtain ⟨_, _, ⟨⟩, body⟩ := bind_eq_ok_iff.mp body
      split at body
      · obtain ⟨-, rfl⟩ := pure_eq_ok_iff.mp body
        exact ⟨taken, later, k, rfl, atLater, began⟩
      · next inside =>
        obtain ⟨_, t, passes, ending⟩ := bind_eq_ok_iff.mp body
        obtain ⟨-, rfl⟩ := pure_eq_ok_iff.mp ending
        obtain ⟨x, advances, -⟩ := map_eq_ok_iff.mp passes
        have one : Takes d p (· = s.cursor.kind) (fun ts => s.cursor.kind.isTame = false → ¬ Tame ts) advance :=
          advance_one (fun atEnd => inside (by rw [← atEnd]; rfl)) fun t same untamed => untamed_singleton (same ▸ untamed)
        obtain ⟨taken', rest', k', rfl, atRest, first⟩ := one _ _ _ _ _ proper.right atLater rfl advances
        refine ⟨taken ++ taken', rest', k', by simp, atRest, .inr fun tame => ?_⟩
        rcases began with ⟨rfl, untamed⟩ | isUntamed
        · exact first untamed tame
        · exact isUntamed fun t member => tame t (List.mem_append_left _ member)
  have ending (isLocking : Bool) : Takes d p (fun k => isLocking = true → k.isTame = false) (Nests a a)
      (if isLocking = true then repeatWhile do
        if (← kind).endsEverything then return false
        else
          discard advance
          return true
      else Pure.pure ()) :=
    .ite (fun locks => clause.mono (fun _ untamed => untamed locks) fun _ => id) fun _ => .nothing
  refine .check fun isFor => .ite (fun found => ?_) fun _ => ?_
  · exact (ending true).mono (fun _ pre _ => by rw [TokenKind.sameShape_keyword.mp (pre.1.trans found)]; rfl) fun _ => id
  · refine .atLock fun isLock => (ending isLock).mono (fun k pre found => ?_) fun _ => id
    rw [TokenKind.isTame, pre.1 found]
    exact Bool.and_false _

/-- Walks stay within the tokens of a text. -/
theorem within_keptByRecords {ts : List Token} (proper : Proper ts) :
    KeptByRecords (fun s => s.cursor.Within d p ts) fun _ => True :=
  keptByRecords_of_steps fun _ _ => Cursor.within_step proper

theorem isTame_of_hint {k : TokenKind} (isHint : [TokenKind.keyword .use, .keyword .ignore, .keyword .force].any k.sameShape = true) :
    k.isTame = false := by
  obtain ⟨l, member, same⟩ := List.any_eq_true.mp isHint
  simp only [List.mem_cons, List.not_mem_nil, or_false] at member
  rcases member with rfl | rfl | rfl <;> rw [TokenKind.sameShape_keyword.mp same] <;> rfl

/-- An index hint begins with an untamed word. A table hint is a group in parentheses. -/
theorem tableHints_nests : Takes d p Pre (Nests a a) tableHints := by
  refine .repeatWhile Nests.chained (.eatAnyThen ?_ (.check fun isWith => .ite (fun found => .peek fun k => ?_) fun _ => .nothing))
  · refine .untamed (.discards (advance_one nofun fun _ pre => untamed_singleton (isTame_of_hint pre.1))) fun _ => ?_
    refine .anything fun ts proper => ?_
    have settled := (within_keptByRecords (d := d) (p := p) proper).settled
    refine (settled.expectAny (b := false) _ _).keeps.discards.bind fun _ => (settled.skipToList (b := false)).keeps.bind fun _ => ?_
    exact (settled.skipParentheses (b := false)).keeps.bind fun _ => .pure
  · refine .ite (fun _ => ?_) fun _ => .nothing
    have word : Takes d p (fun l => l.sameShape (.keyword .with) = isWith ∧ True) Plain advance :=
      advance_plain fun l pre => TokenKind.isPlain_of_sameShape (pre.1.trans found) (by decide)
    exact word.discards.plainly.seq fun _ => skipParentheses_nests.seq fun _ => .nothing

/-! ## Ends of expressions -/

/-- An expression goes on until it finds what ends it, a join word, or a locking clause. -/
theorem expressionWithin_stops {depth : Nat} {ends : TokenKind → Bool} {s t : WalkState} {u : Unit}
    (run : expressionWithin depth ends s = .ok u t) :
    (t.cursor.kind.endsEverything || ends t.cursor.kind) = true ∨ (∃ w, t.cursor.kind = .keyword w) ∨ atLock t = .ok true t := by
  cases depth with
  | zero => cases run
  | succ depth =>
    rw [expressionWithin] at run
    refine repeatFrom_induction (J := fun _ _ => True) (K := fun _ t => (t.cursor.kind.endsEverything || ends t.cursor.kind) = true ∨
      (∃ w, t.cursor.kind = .keyword w) ∨ atLock t = .ok true t) (fun _ _ _ _ _ _ => trivial) ?_ run trivial
    intro _ s _ t _ round
    obtain ⟨again, body, same⟩ := map_eq_ok_iff.mp round
    obtain rfl : again = false := congrArg Prod.fst same
    obtain ⟨_, _, ⟨⟩, body⟩ := bind_eq_ok_iff.mp body
    split at body
    · next ended =>
      obtain ⟨-, rfl⟩ := pure_eq_ok_iff.mp body
      exact .inl ended
    obtain ⟨isJoin, s₁, joins, body⟩ := bind_eq_ok_iff.mp body
    obtain ⟨rfl, isKeyword⟩ := atJoin_stays joins
    split at body
    · next found =>
      obtain ⟨-, rfl⟩ := pure_eq_ok_iff.mp body
      exact .inr (.inl (isKeyword found))
    obtain ⟨isLock, s₂, locks, body⟩ := bind_eq_ok_iff.mp body
    obtain ⟨rfl, -⟩ := atLock_stays locks
    split at body
    · next found =>
      obtain ⟨-, rfl⟩ := pure_eq_ok_iff.mp body
      exact .inr (.inr (found ▸ locks))
    -- every other round goes on
    have goesOn {m : Walk Unit} {v w : WalkState} : (do m; return true) v ≠ .ok false w := by
      intro run
      obtain ⟨_, _, -, run⟩ := bind_eq_ok_iff.mp run
      exact absurd (pure_eq_ok_iff.mp run).1 (by simp)
    dsimp only at body
    split at body
    · exact (goesOn body).elim
    · split at body
      · exact (goesOn body).elim
      · split at body
        · exact (goesOn body).elim
        · exact (goesOn body).elim

/-- An expression does not end at an opening parenthesis. -/
theorem expressionWithin_ends {depth : Nat} {ends : TokenKind → Bool} (goesOn : ends (.symbol .leftParen) = false)
    {s t : WalkState} {u : Unit} (run : expressionWithin depth ends s = .ok u t) :
    t.cursor.kind ≠ .symbol .leftParen := by
  intro atParen
  rcases expressionWithin_stops run with ended | ⟨w, isKeyword⟩ | isLock
  · simp [atParen, goesOn, TokenKind.endsEverything] at ended
  · rw [atParen] at isKeyword
    cases isKeyword
  · have isWord := (atLock_stays isLock).2 rfl
    rw [atParen] at isWord
    cases isWord

end Walk

/-! ## The nested readers -/

/-- The readers take every opening parenthesis with its counterpart. -/
structure NestedParentheses (d : Dialect) (p : Place) (depth : Nat) : Prop where
  expression : ∀ {Pre a} ends, Walk.Takes d p Pre (Nests a a) (Walk.expressionWithin depth ends)
  group : ∀ {Pre a}, Walk.Takes d p Pre (Nests a a) (Walk.groupWithin depth)
  cases : ∀ {a}, Walk.Takes d p (· = .keyword .case) (Nests a a) (Walk.caseWithin depth)
  membership : ∀ {Pre a} x, Walk.Takes d p Pre (Nests a a) (Walk.membershipWithin depth x)
  condition : ∀ {Pre a}, Walk.Takes d p Pre (Nests a a) (Walk.conditionWithin depth)
  conditions : ∀ {Pre a}, Walk.Takes d p Pre (Nests a a) (Walk.conditionsWithin depth)
  tableFactor : ∀ {Pre a}, Walk.Takes d p Pre (Nests a a) (Walk.tableFactorWithin depth)
  tableReferences : ∀ {Pre a}, Walk.Takes d p Pre (Nests a a) (Walk.tableReferencesWithin depth)
  select : ∀ {Pre a} r, Walk.Takes d p Pre (Nests a a) (Walk.selectWithin depth r)
  query : ∀ {Pre a} r, Walk.Takes d p Pre (Nests a a) (Walk.queryWithin depth r)

namespace NestedParentheses

variable {d : Dialect} {p : Place} {Pre : TokenKind → Prop} {depth a : Nat}

theorem zero : NestedParentheses d p 0 where
  expression _ := .fails Walk.failTooDeep_fails
  group := .fails Walk.failTooDeep_fails
  cases := .fails Walk.failTooDeep_fails
  membership _ := .fails Walk.failTooDeep_fails
  condition := .fails Walk.failTooDeep_fails
  conditions := .fails Walk.failTooDeep_fails
  tableFactor := .fails Walk.failTooDeep_fails
  tableReferences := .fails Walk.failTooDeep_fails
  select _ := .fails Walk.failTooDeep_fails
  query _ := .fails Walk.failTooDeep_fails

variable (nested : NestedParentheses d p depth)

include nested

theorem expression_succ (ends : TokenKind → Bool) :
    Walk.Takes d p Pre (Nests a a) (Walk.expressionWithin (depth + 1) ends) := by
  rw [Walk.expressionWithin]
  refine .repeatWhile Nests.chained (.kind fun k => .ite (fun _ => .nothing) fun inside => ?_)
  refine .atJoin fun _ => .ite (fun _ => .nothing) fun _ => .atLock fun _ => .ite (fun _ => .nothing) fun _ => ?_
  refine .ite (fun _ => ?_) fun notOpening => .ite (fun isCase => ?_) fun _ => .ite (fun _ => ?_) fun _ => ?_
  · exact nested.group.seq fun _ => .nothing
  · exact (nested.cases.mono (fun _ pre => pre.2.2.1.trans isCase) fun _ => id).seq fun _ => .nothing
  · exact Walk.column_plain.discards.plainly.seq fun _ => .nothing
  · have plain : k.isPlain := ⟨notOpening, fun isClosing => by simp [isClosing, TokenKind.endsEverything] at inside⟩
    exact .seq (.plainly (.discards (Walk.advance_plain fun _ pre => pre.2.2.1 ▸ plain))) fun _ => .nothing

theorem group_succ : Walk.Takes d p Pre (Nests a a) (Walk.groupWithin (depth + 1)) := by
  rw [Walk.groupWithin]
  refine Walk.expect_opening.seq fun _ => .check fun _ => .ite (fun _ => ?_) fun _ => ?_
  · exact (nested.query false).seq fun _ => Walk.expect_closing
  · refine .seq (.repeatWhile Nests.chained ?_) fun _ => Walk.expect_closing
    refine (nested.expression _).seq fun _ => .atJoin fun _ => .ite (fun isJoin => ?_) fun _ => .nothing
    exact (Walk.advance_plain fun _ pre => TokenKind.isPlain_of_isKeyword (pre.1 isJoin)).discards.plainly.seq fun _ => .nothing

/-- Where an expression in a `CASE` ends, no parenthesis opens. -/
theorem cases_succ : Walk.Takes d p (· = .keyword .case) (Nests a a) (Walk.caseWithin (depth + 1)) := by
  rw [Walk.caseWithin]
  have opens : Walk.Takes d p (· = .keyword .case) Plain Walk.advance :=
    Walk.advance_plain fun _ same => TokenKind.isPlain_of_isKeyword ⟨_, same⟩
  refine opens.plainly.seq fun opening => .repeatWhile Nests.chained ?_
  refine .followed Nests.chained (Q := (· ≠ .symbol .leftParen)) (nested.expression _)
    (fun _ _ _ => Walk.expressionWithin_ends rfl) fun _ => .kind fun k => ?_
  have passes (plain : k ≠ .symbol .leftParen → k.isPlain) :
      Walk.Takes d p (fun l => l = k ∧ l ≠ .symbol .leftParen) Plain Walk.advance :=
    Walk.advance_plain fun l pre => pre.1 ▸ plain (pre.1 ▸ pre.2)
  refine .ite (fun isEnd => ?_) fun _ => .ite (fun _ => .fails Walk.failAt_fails) fun inside => ?_
  · exact (passes fun _ => TokenKind.isPlain_of_isKeyword ⟨_, isEnd⟩).discards.plainly.seq fun _ => .nothing
  · have plain (notOpening : k ≠ .symbol .leftParen) : k.isPlain :=
      ⟨notOpening, fun isClosing => by simp [isClosing, TokenKind.endsEverything] at inside⟩
    exact (passes plain).discards.plainly.seq fun _ => .nothing

theorem membership_succ (x : Column) : Walk.Takes d p Pre (Nests a a) (Walk.membershipWithin (depth + 1) x) := by
  rw [Walk.membershipWithin]
  refine .check fun isList => .ite (fun _ => .nothing) fun found => .peek fun k => .ite (fun _ => ?_) fun _ => ?_
  · exact nested.group.seq fun _ => .nothing
  refine (Walk.advance_opening fun _ pre => TokenKind.sameShape_symbol.mp (by simpa [pre.1] using found)).seq fun _ => ?_
  refine .seq (.repeatFrom Nests.chained (fun values? => ?_) _) fun _ => Walk.expect_closing.seq fun _ => .nothing
  refine Walk.value?_plain.plainly.seq fun value? => .checkAny fun listEnds => ?_
  refine .ite (fun _ => ?_) fun _ => ?_
  · exact (nested.expression _).seq fun _ => (Walk.eat_plain (by decide)).plainly.seq fun _ => .nothing
  · exact (Walk.eat_plain (by decide)).plainly.seq fun _ => .nothing

theorem condition_succ : Walk.Takes d p Pre (Nests a a) (Walk.conditionWithin (depth + 1)) := by
  rw [Walk.conditionWithin]
  have ending (condition? : Option Condition) : Walk.Takes d p (fun _ => True) (Nests a a) (Walk.conditionEnd depth condition?) := by
    cases condition? with
    | none => exact nested.expression _
    | some condition =>
      refine .seeing (fun _ _ _ => Walk.atConditionEnd_stays) fun _ => .ite (fun _ => ?_) fun _ => nested.expression _
      exact .bind Nests.chained (.record Nests.chained) fun _ => nested.expression _
  refine .kind fun k => .ite (fun isNot => ?_) fun _ => .ite (fun opens => ?_) fun _ => .ite (fun _ => ?_) fun _ => nested.expression _
  · refine .seeing (by rintro s x t ⟨⟩; rfl) fun before => ?_
    have passes : Walk.Takes d p (fun l => l = k ∧ Pre l) Plain Walk.advance :=
      Walk.advance_plain fun _ pre => TokenKind.isPlain_of_isKeyword ⟨_, pre.1.trans isNot⟩
    exact passes.discards.plainly.seq fun _ => nested.condition.seq fun _ => .record Nests.chained
  · refine .peek fun _ => .ite (fun _ => nested.group.seq fun _ => nested.expression _) fun _ => ?_
    refine (Walk.advance_opening fun _ pre => pre.1.trans opens).seq fun _ => nested.conditions.seq fun _ => ?_
    exact Walk.expect_closing.seq fun _ => nested.expression _
  · refine Walk.column_plain.plainly.seq fun column => ?_
    cases column with
    | none => exact nested.expression _
    | some column =>
      refine (Walk.eatAny_plain (by decide)).plainly.seq fun _ => .ite (fun _ => ?_) fun _ => ?_
      · exact (Walk.equality?_plain column).plainly.seq ending
      refine (Walk.eat_plain (by decide)).plainly.seq fun _ => .ite (fun _ => (nested.membership column).seq ending) fun _ => ?_
      refine (Walk.eat_plain (by decide)).plainly.seq fun _ => .ite (fun _ => ?_) fun _ => ending none
      exact (Walk.between?_plain column).plainly.seq ending

theorem conditions_succ : Walk.Takes d p Pre (Nests a a) (Walk.conditionsWithin (depth + 1)) := by
  rw [Walk.conditionsWithin]
  refine .repeatWhile Nests.chained (nested.condition.seq fun _ => ?_)
  refine (Walk.eat_plain (by decide)).plainly.seq fun _ => .ite (fun _ => .nothing) fun _ => ?_
  refine (Walk.eat_plain (by decide)).plainly.seq fun _ => .ite (fun _ => ?_) fun _ => .nothing
  exact .bind Nests.chained (.record Nests.chained) fun _ => .nothing

theorem tableFactor_succ : Walk.Takes d p Pre (Nests a a) (Walk.tableFactorWithin (depth + 1)) := by
  rw [Walk.tableFactorWithin]
  refine .check fun _ => .ite (fun isGroup => .peek fun _ => .ite (fun _ => ?_) fun _ => ?_) fun _ => ?_
  · exact nested.group.seq fun _ => Walk.alias?_plain.discards.plainly
  · refine (Walk.advance_opening fun _ pre => TokenKind.sameShape_symbol.mp (pre.1.trans isGroup)).seq fun _ => ?_
    exact nested.tableReferences.seq fun _ => Walk.expect_closing
  · refine Walk.qualifiedName_plain.plainly.seq fun _ => Walk.alias?_plain.plainly.seq fun _ => ?_
    exact .bind Nests.chained (.record Nests.chained) fun _ => Walk.tableHints_nests

theorem tableReferences_succ : Walk.Takes d p Pre (Nests a a) (Walk.tableReferencesWithin (depth + 1)) := by
  rw [Walk.tableReferencesWithin]
  refine nested.tableFactor.seq fun _ => .repeatWhile Nests.chained ?_
  refine (Walk.eat_plain (by decide)).plainly.seq fun _ => .ite (fun _ => nested.tableFactor.seq fun _ => .nothing) fun _ => ?_
  refine .atJoin fun _ => .ite (fun _ => ?_) fun _ => .nothing
  refine (Walk.skipAll_plain (by decide)).plainly.seq fun _ => nested.tableFactor.seq fun _ => ?_
  refine (Walk.eat_plain (by decide)).plainly.seq fun _ => .ite (fun _ => (nested.expression _).seq fun _ => .nothing) fun _ => ?_
  refine (Walk.eat_plain (by decide)).plainly.seq fun _ => .ite (fun _ => ?_) fun _ => .nothing
  exact Walk.skipParentheses_nests.seq fun _ => .nothing

theorem select_succ (r : Bool) : Walk.Takes d p Pre (Nests a a) (Walk.selectWithin (depth + 1) r) := by
  have clause {Pre : TokenKind → Prop} : Walk.Takes d p Pre (Nests a a) (Walk.expressionWithin depth TokenKind.endsClause) :=
    nested.expression _
  have having : Walk.Takes d p (fun _ => True) (Nests a a) (Walk.havingEnd depth) :=
    (Walk.eat_plain (by decide)).plainly.seq fun _ => .ite (fun _ => clause) fun _ => .nothing
  have groups : Walk.Takes d p (fun _ => True) (Nests a a) (do
      if ← Walk.eat (.keyword .group) then
        discard (Walk.expect (.keyword .by))
        Walk.expressionWithin depth TokenKind.endsClause
      Walk.havingEnd depth) := by
    refine (Walk.eat_plain (by decide)).plainly.seq fun _ => .ite (fun _ => ?_) fun _ => having
    exact (Walk.expect_plain (by decide)).plainly.seq fun _ => clause.seq fun _ => having
  have conditions : Walk.Takes d p (fun _ => True) (Nests a a) (do
      if ← Walk.eat (.keyword .where) then Walk.conditionsWithin depth
      if ← Walk.eat (.keyword .group) then
        discard (Walk.expect (.keyword .by))
        Walk.expressionWithin depth TokenKind.endsClause
      Walk.havingEnd depth) := by
    refine (Walk.eat_plain (by decide)).plainly.seq fun _ => .ite (fun _ => ?_) fun _ => groups
    exact nested.conditions.seq fun _ => groups
  have ending : Walk.Takes d p (fun _ => True) (Nests a a) (Walk.selectEnd depth) := by
    refine clause.seq fun _ => (Walk.eat_plain (by decide)).plainly.seq fun _ => .ite (fun _ => ?_) fun _ => conditions
    exact nested.tableReferences.seq fun _ => conditions
  rw [Walk.selectWithin_succ]
  refine (Walk.expect_plain (by decide)).plainly.seq fun _ => (Walk.skipAll_plain (by decide)).plainly.seq fun _ => ?_
  refine .check fun _ => .ite (fun _ => (Walk.topClause_nests r).seq fun _ => ending) fun _ => ending.anywhere

theorem query_succ (r : Bool) : Walk.Takes d p Pre (Nests a a) (Walk.queryWithin (depth + 1) r) := by
  have paginated : Walk.Takes d p (fun _ => True) (Nests a a) (Walk.paginationEnd r) :=
    (Walk.pagination_plain r).plainly.seq fun _ => Walk.lockingClause_nests
  have ending : Walk.Takes d p (fun _ => True) (Nests a a) (Walk.queryEnd depth r) := by
    refine (Walk.eatAny_plain (by decide)).plainly.seq fun _ => .ite (fun _ => ?_) fun _ => ?_
    · exact (Walk.eatAny_plain (by decide)).discards.plainly.seq fun _ => nested.query false
    · refine (Walk.eat_plain (by decide)).plainly.seq fun _ => .ite (fun _ => ?_) fun _ => paginated
      exact (Walk.expect_plain (by decide)).plainly.seq fun _ => (nested.expression _).seq fun _ => paginated
  rw [Walk.queryWithin]
  refine .eatThen ?_ ((nested.select r).seq fun _ => ending)
  refine (Walk.advance_opening fun _ pre => TokenKind.sameShape_symbol.mp pre.1).seq fun _ => (nested.query r).seq fun _ => ?_
  exact Walk.expect_closing.seq fun _ => ending

theorem succ : NestedParentheses d p (depth + 1) where
  expression := nested.expression_succ
  group := nested.group_succ
  cases := nested.cases_succ
  membership := nested.membership_succ
  condition := nested.condition_succ
  conditions := nested.conditions_succ
  tableFactor := nested.tableFactor_succ
  tableReferences := nested.tableReferences_succ
  select := nested.select_succ
  query := nested.query_succ

omit nested in
/-- However deep they are nested. -/
theorem all : ∀ depth, NestedParentheses d p depth
  | 0 => zero
  | depth + 1 => (all depth).succ

end NestedParentheses

end SqlSharding.Sql
