import SqlSharding.Proofs.BalancedTokens
import SqlSharding.Proofs.Operands
import SqlSharding.Proofs.Views

/-!
# Tokens that are passed

What a walk over an INSERT has done when it ends: it has passed some of the tokens that were left, it has counted the placeholders
among them, and it has recorded conditions, columns, rows and keys. A walk over an expression without queries passes balanced
tokens and records none of these.
-/

namespace SqlSharding.Sql

/-! ## What is recorded -/

/-- What an INSERT records of its rows. -/
structure InsertRecord where
  conditions : Conditions
  columns : List String
  rows : Nat
  keys : List RewritePoint

def Statement.insertRecord (s : Statement) : InsertRecord :=
  ⟨s.conditions, s.insertColumns, s.insertRows, s.points.filter (·.isKey)⟩

/-- How far a walk has come: the placeholders behind, the kinds of the tokens that are left, and what is recorded. -/
structure Progress where
  placeholders : Nat
  kinds : List TokenKind
  record : InsertRecord

namespace Progress

/-- The kind of the current token. -/
def kind (v : Progress) : TokenKind := v.kinds.head?.getD .endOfInput

/-- No query is left. -/
def NoQuery (v : Progress) : Prop := .keyword .select ∉ v.kinds

/-- From one progress to another one, some tokens are passed and nothing is recorded. -/
structure Passes (v : Progress) (ks : List TokenKind) (w : Progress) : Prop where
  kinds : v.kinds = ks ++ w.kinds
  placeholders : w.placeholders = v.placeholders + ks.count (.symbol .question)
  record : w.record = v.record

variable {v w x : Progress} {k : TokenKind} {ks ls : List TokenKind}

theorem Passes.refl (v : Progress) : v.Passes [] v := ⟨rfl, rfl, rfl⟩

theorem Passes.trans (first : v.Passes ks w) (second : w.Passes ls x) : v.Passes (ks ++ ls) x where
  kinds := by rw [first.kinds, second.kinds, List.append_assoc]
  placeholders := by rw [second.placeholders, first.placeholders, List.count_append, Nat.add_assoc]
  record := second.record.trans first.record

theorem Passes.noQuery (passes : v.Passes ks w) (noQuery : v.NoQuery) : w.NoQuery := by
  intro member
  refine noQuery ?_
  rw [passes.kinds]
  exact List.mem_append_right ks member

theorem Passes.eq_of_kinds (passes : v.Passes ks w) (left : v.kinds = ks ++ ls) :
    w = ⟨v.placeholders + ks.count (.symbol .question), ls, v.record⟩ := by
  obtain ⟨kinds, placeholders, record⟩ := passes
  rw [← placeholders, ← record, ← List.append_cancel_left (kinds.symm.trans left)]

/-- Some tokens of certain kinds are passed. -/
def PassesOf (v : Progress) (P : TokenKind → Prop) (w : Progress) : Prop := ∃ ks, v.Passes ks w ∧ ∀ k ∈ ks, P k

namespace PassesOf

variable {P : TokenKind → Prop}

theorem refl (v : Progress) : v.PassesOf P v := ⟨[], .refl v, nofun⟩

theorem trans (first : v.PassesOf P w) (second : w.PassesOf P x) : v.PassesOf P x := by
  obtain ⟨ks, passes, holds⟩ := first
  obtain ⟨ls, passes', holds'⟩ := second
  exact ⟨ks ++ ls, passes.trans passes', fun k member => (List.mem_append.mp member).elim (holds k) (holds' k)⟩

end PassesOf

theorem Passes.of {P : TokenKind → Prop} (passes : v.Passes [k] w) (holds : P k) : v.PassesOf P w :=
  ⟨[k], passes, fun _ member => List.mem_singleton.mp member ▸ holds⟩

theorem kind_mem (inside : v.kind ≠ .endOfInput) : v.kind ∈ v.kinds := by
  unfold kind at inside ⊢
  cases left : v.kinds with
  | nil =>
    rw [left] at inside
    exact absurd rfl inside
  | cons k ks => exact List.mem_cons_self

end Progress

theorem TokenKind.any_sameShape_iff {ks : List TokenKind} {k : TokenKind} (fixed : ∀ l ∈ ks, l.isFixed = true) :
    ks.any k.sameShape = true ↔ k ∈ ks := by
  rw [List.any_eq_true]
  constructor
  · rintro ⟨l, member, same⟩
    rwa [(sameShape_fixed (fixed l member)).mp same]
  · exact fun member => ⟨k, member, (sameShape_fixed (fixed k member)).mpr rfl⟩

/-- A state that has come so far over the tokens of a text. -/
def WalkState.Reached (d : Dialect) (p : Place) (v : Progress) (s : WalkState) : Prop :=
  ∃ ts, Proper ts ∧ s.cursor = .along d p v.placeholders ts ∧ ts.map (·.kind) = v.kinds ∧ s.statement.insertRecord = v.record

/-- A walk that ends has come from one progress to a certain other one, with a certain result. -/
def Walk.Yields (d : Dialect) (p : Place) (m : Walk α) (v : Progress) (Q : α → Progress → Prop) : Prop :=
  ∀ s a u, s.Reached d p v → m s = .ok a u → ∃ w, Q a w ∧ u.Reached d p w

variable {d : Dialect} {p : Place} {v w : Progress} {s u : WalkState} {α β σ : Type} {m n : Walk α} {g : α → Walk β}
  {Q R : α → Progress → Prop} {S : β → Progress → Prop} {k : TokenKind} {ks : List TokenKind}

theorem WalkState.Reached.kind_eq (reached : s.Reached d p v) : s.cursor.kind = v.kind := by
  obtain ⟨ts, -, atCursor, kinds, -⟩ := reached
  rw [atCursor, Progress.kind, ← kinds]
  cases ts <;> rfl

namespace Walk.Yields

/-! ## Walks in sequence -/

theorem pure {a : α} (holds : Q a v) : Yields d p (Pure.pure a) v Q := by
  intro s b u reached run
  obtain ⟨rfl, rfl⟩ := pure_eq_ok_iff.mp run
  exact ⟨v, holds, reached⟩

theorem fails (never : Fails m) : Yields d p m v Q := fun s a u _ run => absurd run (never s a u)

theorem bind (first : Yields d p m v R) (next : ∀ a w, R a w → Yields d p (g a) w S) : Yields d p (m >>= g) v S := by
  intro s b u reached run
  obtain ⟨a, t, firstRun, nextRun⟩ := bind_eq_ok_iff.mp run
  obtain ⟨w, holds, reached⟩ := first s a t reached firstRun
  exact next a w holds t b u reached nextRun

theorem mono (yields : Yields d p m v R) (weaker : ∀ a w, R a w → Q a w) : Yields d p m v Q := by
  intro s a u reached run
  obtain ⟨w, holds, reached⟩ := yields s a u reached run
  exact ⟨w, weaker a w holds, reached⟩

theorem map {f : α → β} (yields : Yields d p m v fun a w => S (f a) w) : Yields d p (f <$> m) v S := by
  intro s b u reached run
  obtain ⟨a, inner, rfl⟩ := map_eq_ok_iff.mp run
  exact yields s a u reached inner

theorem discarded {P : Unit → Progress → Prop} (yields : Yields d p m v fun _ => P ()) : Yields d p (discard m) v P :=
  map yields

theorem ite {c : Prop} [Decidable c] (yes : c → Yields d p m v Q) (no : ¬ c → Yields d p n v Q) :
    Yields d p (if c then m else n) v Q := by
  split
  · next h => exact yes h
  · next h => exact no h

/-- A walk that only looks tells something of its result. -/
theorem look {P : α → Prop} (stays : ∀ s a u, s.Reached d p v → m s = .ok a u → P a ∧ u = s)
    (next : ∀ a, P a → Yields d p (g a) v S) : Yields d p (m >>= g) v S := by
  intro s b u reached run
  obtain ⟨a, t, firstRun, nextRun⟩ := bind_eq_ok_iff.mp run
  obtain ⟨holds, rfl⟩ := stays s a t reached firstRun
  exact next a holds _ b u reached nextRun

theorem kind {g : TokenKind → Walk β} (next : Yields d p (g v.kind) v S) : Yields d p (Walk.kind >>= g) v S := by
  refine look (P := (· = v.kind)) (fun s a u reached run => ?_) fun a same => same ▸ next
  cases run
  exact ⟨reached.kind_eq, rfl⟩

theorem check {g : Bool → Walk β} (k : TokenKind) (next : Yields d p (g (v.kind.sameShape k)) v S) :
    Yields d p (Walk.check k >>= g) v S := by
  refine look (P := (· = v.kind.sameShape k)) (fun s a u reached run => ?_) fun a same => same ▸ next
  cases run
  rw [Cursor.check, reached.kind_eq]
  exact ⟨rfl, rfl⟩

theorem checkAny {g : Bool → Walk β} (ks : List TokenKind) (next : Yields d p (g (ks.any v.kind.sameShape)) v S) :
    Yields d p (Walk.checkAny ks >>= g) v S := by
  refine look (P := (· = ks.any v.kind.sameShape)) (fun s a u reached run => ?_) fun a same => same ▸ next
  cases run
  have sees : s.cursor.check = v.kind.sameShape := funext fun k => by rw [Cursor.check, reached.kind_eq]
  rw [Cursor.checkAny, sees]
  exact ⟨rfl, rfl⟩

theorem parameterIndex {g : Nat → Walk β} (next : Yields d p (g v.placeholders) v S) :
    Yields d p (Walk.parameterIndex >>= g) v S := by
  refine look (P := (· = v.placeholders)) (fun s a u reached run => ?_) fun a same => same ▸ next
  cases run
  obtain ⟨ts, -, atCursor, -⟩ := reached
  rw [atCursor, Cursor.along_parameterIndex]
  exact ⟨rfl, rfl⟩

theorem statement {g : Statement → Walk β} (next : ∀ s : Statement, s.insertRecord = v.record → Yields d p (g s) v S) :
    Yields d p (Walk.statement >>= g) v S := by
  refine look (P := fun s : Statement => s.insertRecord = v.record) (fun s a u reached run => ?_) next
  cases run
  obtain ⟨ts, -, -, -, record⟩ := reached
  exact ⟨record, rfl⟩

/-- A look at the cursor, or at how deep a nesting can be. -/
theorem anyway (stays : ∀ s a u, m s = .ok a u → u = s) (next : ∀ a, Yields d p (g a) v S) : Yields d p (m >>= g) v S :=
  look (P := fun _ => True) (fun s a u _ run => ⟨trivial, stays s a u run⟩) fun a _ => next a

theorem cursor {g : Cursor → Walk β} (next : ∀ c, Yields d p (g c) v S) : Yields d p (Walk.cursor >>= g) v S :=
  anyway (fun s a u run => by cases run; rfl) next

theorem depth {g : Nat → Walk β} (next : ∀ n, Yields d p (g n) v S) : Yields d p (Walk.depth >>= g) v S := by
  refine anyway (fun s a u run => ?_) next
  obtain ⟨_, _, ⟨⟩, run⟩ := bind_eq_ok_iff.mp run
  exact (pure_eq_ok_iff.mp run).2.symm

theorem peek {g : TokenKind → Walk β} (next : ∀ k, k = .endOfInput ∨ k ∈ v.kinds → Yields d p (g k) v S) :
    Yields d p (Walk.peek >>= g) v S := by
  refine look (P := fun k => k = .endOfInput ∨ k ∈ v.kinds) (fun s k u reached run => ?_) next
  obtain ⟨ahead, rfl⟩ := peek_eq_ok_iff.mp run
  obtain ⟨ts, proper, atCursor, kinds, -⟩ := reached
  refine ⟨?_, rfl⟩
  rw [atCursor] at ahead
  match ts with
  | [] => exact .inl (Except.ok.inj ahead).symm
  | [t] =>
    rw [Cursor.along_peek_last proper] at ahead
    exact .inl (Except.ok.inj ahead).symm
  | t :: t' :: ts =>
    rw [Cursor.along_peek proper] at ahead
    rw [← kinds, ← Except.ok.inj ahead]
    exact .inr (by simp)

/-- A join word is a token of its own, and it is where a walk looks for it. -/
theorem atJoin {g : Bool → Walk β} (next : ∀ found, (found = true → v.kind.isSingle = true) → Yields d p (g found) v S) :
    Yields d p (Walk.atJoin >>= g) v S := by
  refine look (P := fun found => found = true → v.kind.isSingle = true) (fun s found u reached run => ?_) next
  refine ⟨fun isJoin => ?_, (atJoin_stays run).1⟩
  obtain ⟨w, isWord⟩ := (atJoin_stays run).2 isJoin
  obtain ⟨_, _, ⟨⟩, run⟩ := bind_eq_ok_iff.mp run
  rw [← reached.kind_eq, isWord]
  rw [isWord] at run
  by_cases isCase : w = .case
  · subst isCase
    obtain ⟨found, -⟩ := pure_eq_ok_iff.mp run
    rw [isJoin] at found
    cases found
  · simp [TokenKind.isSingle, TokenKind.endsEverything, isCase]

theorem atLock {g : Bool → Walk β} (next : ∀ found, (found = true → v.kind.isSingle = true) → Yields d p (g found) v S) :
    Yields d p (Walk.atLock >>= g) v S := by
  refine look (P := fun found => found = true → v.kind.isSingle = true) (fun s found u reached run => ?_) next
  refine ⟨fun isLock => ?_, (atLock_stays run).1⟩
  have isWord := (atLock_stays run).2 isLock
  rw [reached.kind_eq] at isWord
  cases isKind : v.kind <;> rw [isKind] at isWord <;> first | rfl | cases isWord

/-! ## Steps -/

theorem record {f : Statement → Statement} {r : InsertRecord}
    (changes : ∀ s, s.insertRecord = v.record → (f s).insertRecord = r) :
    Yields d p (Walk.record f) v fun _ w => w = { v with record := r } := by
  rintro s _ u ⟨ts, proper, atCursor, kinds, same⟩ ⟨⟩
  exact ⟨_, rfl, ts, proper, atCursor, kinds, changes _ same⟩

theorem advance (inside : v.kind ≠ .endOfInput) : Yields d p Walk.advance v fun _ w => v.Passes [v.kind] w := by
  intro s t u reached run
  have isFirst := reached.kind_eq
  obtain ⟨ts, proper, atCursor, kinds, same⟩ := reached
  obtain ⟨next, step, -, rfl⟩ := advance_eq_ok_iff.mp run
  rw [← isFirst] at inside ⊢
  rw [atCursor] at inside step ⊢
  cases ts with
  | nil => exact absurd rfl inside
  | cons t ts =>
    rw [Cursor.along_step proper] at step
    cases step
    have counted : Cursor.countAfter v.placeholders t.kind = v.placeholders + [t.kind].count (.symbol .question) := by
      rw [Cursor.countAfter, List.count_singleton]
      by_cases isQuestion : t.kind = .symbol .question
      · rw [if_pos isQuestion, if_pos (by simpa using isQuestion)]
      · rw [if_neg isQuestion, if_neg (by simpa using isQuestion), Nat.add_zero]
    rw [Cursor.along_cons_kind]
    exact ⟨⟨Cursor.countAfter v.placeholders t.kind, ts.map Token.kind, v.record⟩, ⟨kinds.symm, counted, rfl⟩, ts,
      proper.tail, rfl, rfl, same⟩

theorem advance_then {g : Unit → Walk β} (isKind : v.kind = k) (inside : k ≠ .endOfInput)
    (next : ∀ w, v.Passes [k] w → Yields d p (g ()) w S) : Yields d p (discard Walk.advance >>= g) v S := by
  subst isKind
  exact bind (discarded (P := fun _ w => v.Passes [v.kind] w) (advance inside)) fun _ w passes => next w passes

theorem eat (fixed : k.isFixed = true) : Yields d p (Walk.eat k) v fun found w =>
    if found = true then v.kind = k ∧ v.Passes [k] w else v.kind ≠ k ∧ w = v := by
  refine check k (ite (fun same => ?_) fun other => pure ⟨fun same => other ?_, rfl⟩)
  · have isKind := (TokenKind.sameShape_fixed fixed).mp same
    exact advance_then isKind (TokenKind.ne_endOfInput_of_fixed fixed) fun w passes => pure ⟨isKind, passes⟩
  · exact (TokenKind.sameShape_fixed fixed).mpr same

theorem eat_then {g : Bool → Walk β} (fixed : k.isFixed = true)
    (yes : v.kind = k → ∀ w, v.Passes [k] w → Yields d p (g true) w S) (no : v.kind ≠ k → Yields d p (g false) v S) :
    Yields d p (Walk.eat k >>= g) v S := by
  refine bind (eat fixed) fun found w ended => ?_
  cases found with
  | true =>
    obtain ⟨isKind, passes⟩ := ended
    exact yes isKind w passes
  | false =>
    obtain ⟨other, rfl⟩ := ended
    exact no other

theorem eatAny (fixed : ∀ k ∈ ks, k.isFixed = true) : Yields d p (Walk.eatAny ks) v fun found w =>
    if found = true then v.kind ∈ ks ∧ v.Passes [v.kind] w else v.kind ∉ ks ∧ w = v := by
  refine checkAny ks (ite (fun found => ?_) fun other => pure ⟨fun member => other ?_, rfl⟩)
  · have member := (TokenKind.any_sameShape_iff fixed).mp found
    exact advance_then rfl (TokenKind.ne_endOfInput_of_fixed (fixed _ member)) fun w passes => pure ⟨member, passes⟩
  · exact (TokenKind.any_sameShape_iff fixed).mpr member

theorem expectAny (fixed : ∀ k ∈ ks, k.isFixed = true) (what : Expectation) :
    Yields d p (discard (Walk.expectAny ks what)) v fun _ w => v.kind ∈ ks ∧ v.Passes [v.kind] w := by
  refine discarded (checkAny ks (ite (fun found => ?_) fun _ => fails failExpected_fails))
  have member := (TokenKind.any_sameShape_iff fixed).mp found
  exact mono (advance (TokenKind.ne_endOfInput_of_fixed (fixed _ member))) fun _ w passes => ⟨member, passes⟩

theorem expect (fixed : k.isFixed = true) :
    Yields d p (discard (Walk.expect k)) v fun _ w => v.kind = k ∧ v.Passes [k] w := by
  refine discarded (check k (ite (fun same => ?_) fun _ => fails failExpected_fails))
  have isKind := (TokenKind.sameShape_fixed fixed).mp same
  refine mono (advance (isKind ▸ TokenKind.ne_endOfInput_of_fixed fixed)) fun _ w passes => ⟨isKind, ?_⟩
  rwa [← isKind]

/-! ## Loops -/

/-- What each round that goes on keeps, with what the last round makes of it. -/
theorem repeatFrom {f : σ → Walk (Bool × σ)} {J K : σ → Progress → Prop}
    (round : ∀ x v, J x v → Yields d p (f x) v fun r w => if r.1 = true then J r.2 w else K r.2 w) {x : σ} (holds : J x v) :
    Yields d p (Walk.repeatFrom x f) v K := by
  intro s y u reached run
  refine repeatFrom_induction (J := fun x s => ∃ w, J x w ∧ s.Reached d p w) (K := fun y u => ∃ w, K y w ∧ u.Reached d p w)
    ?_ ?_ run ⟨v, holds, reached⟩
  · rintro x s y t ⟨w, holds, reached⟩ run
    exact round x w holds s _ t reached run
  · rintro x s y t ⟨w, holds, reached⟩ run
    obtain ⟨w', ended, reached'⟩ := round x w holds s _ t reached run
    exact ⟨w', by simpa using ended, reached'⟩

theorem repeatWhile {m : Walk Bool} {J K : Progress → Prop}
    (round : ∀ v, J v → Yields d p m v fun again w => if again = true then J w else K w) (holds : J v) :
    Yields d p (Walk.repeatWhile m) v fun _ => K :=
  repeatFrom (J := fun _ => J) (K := fun _ => K) (fun _ v holds => map (round v holds)) holds

/-! ## Names -/

theorem identifier : Yields d p Walk.identifier v fun _ w => v.PassesOf (·.isNamePart = true) w := by
  refine kind (ite (fun names => ?_) fun _ => fails failExpected_fails)
  have inside : v.kind ≠ .endOfInput := by
    intro same
    rw [same] at names
    cases names
  refine map (mono (advance inside) fun _ w passes => passes.of ?_)
  simp [TokenKind.isNamePart, names]

theorem nameParts (first : Identifier) :
    Yields d p (Walk.nameParts first) v fun _ w => v.PassesOf (·.isNamePart = true) w := by
  refine repeatFrom (J := fun _ w => v.PassesOf (·.isNamePart = true) w) (fun (parts, _) w passed => ?_) (.refl v)
  refine eat_then rfl (fun _ w' dot => kind (ite (fun _ => ?_) fun _ => ite (fun star => ?_) fun _ => ?_)) fun _ => pure passed
  · exact bind identifier fun _ x name => pure ((passed.trans (dot.of rfl)).trans name)
  · exact advance_then star nofun fun x passes => pure ((passed.trans (dot.of rfl)).trans (passes.of rfl))
  · exact fails failExpected_fails

/-- A dotted name is passed whole. -/
theorem column : Yields d p Walk.column v fun _ w => v.PassesOf (·.isNamePart = true) w := by
  have records (owner : Identifier) {w : Progress} (passed : v.PassesOf (·.isNamePart = true) w) :
      Yields d p (Walk.record (·.addQualifier owner)) w fun _ x => v.PassesOf (·.isNamePart = true) x :=
    mono (record (r := w.record) fun s same => same) fun _ _ same => same ▸ passed
  refine bind identifier fun first w name => bind (nameParts first) fun (parts, star) x more => ?_
  have passed := name.trans more
  refine ite (fun _ => ?_) fun _ => ?_
  · cases parts.getLast? with
    | none => exact pure passed
    | some owner => exact bind (records owner passed) fun _ _ passed => pure passed
  · split
    · exact pure passed
    · exact pure passed
    · exact bind (records _ passed) fun _ _ passed => pure passed

end Walk.Yields

/-! ## Expressions -/

/-- No part of a name is what ends an expression. -/
def TokenKind.SparesNames (ends : TokenKind → Bool) : Prop := ∀ k, k.isNamePart = true → ends k = false

/-- Tokens of an expression are passed. -/
def Progress.PassesExpression (v : Progress) (ends : TokenKind → Bool) (w : Progress) : Prop :=
  ∃ ks, v.Passes ks w ∧ Balanced ends ks

namespace Progress.PassesExpression

variable {ends : TokenKind → Bool} {x : Progress}

theorem refl (v : Progress) : v.PassesExpression ends v := ⟨[], .refl v, .nil⟩

theorem trans (first : v.PassesExpression ends w) (second : w.PassesExpression ends x) : v.PassesExpression ends x := by
  obtain ⟨ks, passes, balanced⟩ := first
  obtain ⟨ls, passes', balanced'⟩ := second
  exact ⟨ks ++ ls, passes.trans passes', balanced.append balanced'⟩

theorem noQuery (passed : v.PassesExpression ends w) (noQuery : v.NoQuery) : w.NoQuery := by
  obtain ⟨ks, passes, -⟩ := passed
  exact passes.noQuery noQuery

end Progress.PassesExpression

theorem Progress.Passes.single {ends : TokenKind → Bool} (passes : v.Passes [k] w) (single : k.isSingle = true)
    (goesOn : ends k = false) : v.PassesExpression ends w := ⟨[k], passes, .single single goesOn .nil⟩

theorem Progress.PassesOf.name {ends : TokenKind → Bool} (passed : v.PassesOf (·.isNamePart = true) w)
    (spares : TokenKind.SparesNames ends) : v.PassesExpression ends w := by
  obtain ⟨ks, passes, names⟩ := passed
  refine ⟨ks, passes, .of_singles fun k member => ⟨?_, spares k (names k member)⟩⟩
  have isPart := names k member
  cases k with
  | symbol s => cases s <;> first | rfl | cases isPart
  | identifier | quotedIdentifier => rfl
  | _ => cases isPart

/-- What the readers of expressions pass where no query is left. -/
structure PassesBalanced (d : Dialect) (p : Place) (depth : Nat) : Prop where
  expression : ∀ {ends}, TokenKind.SparesNames ends → ∀ {v : Progress}, v.NoQuery →
    Walk.Yields d p (Walk.expressionWithin depth ends) v fun _ w => v.PassesExpression ends w ∧
      (w.kind.endsEverything = true ∨ ends w.kind = true ∨ w.kind.isSingle = true)
  group : ∀ {v : Progress}, v.NoQuery → Walk.Yields d p (Walk.groupWithin depth) v fun _ w =>
    ∃ inner, v.Passes (.symbol .leftParen :: (inner ++ [.symbol .rightParen])) w ∧ Balanced TokenKind.endsNothing inner
  cases : ∀ {v : Progress}, v.NoQuery → v.kind = .keyword .case → Walk.Yields d p (Walk.caseWithin depth) v fun _ w =>
    ∃ inner, v.Passes (.keyword .case :: (inner ++ [.keyword .end])) w ∧ Balanced TokenKind.isEndKeyword inner

namespace PassesBalanced

open Walk.Yields

variable {depth : Nat} {ends : TokenKind → Bool}

theorem zero : PassesBalanced d p 0 where
  expression _ _ _ := .fails Walk.failTooDeep_fails
  group _ := .fails Walk.failTooDeep_fails
  cases _ _ := .fails Walk.failTooDeep_fails

variable (nested : PassesBalanced d p depth)

include nested

theorem expression_succ (spares : TokenKind.SparesNames ends) (noQuery : v.NoQuery) :
    Walk.Yields d p (Walk.expressionWithin (depth + 1) ends) v fun _ w => v.PassesExpression ends w ∧
      (w.kind.endsEverything = true ∨ ends w.kind = true ∨ w.kind.isSingle = true) := by
  rw [Walk.expressionWithin]
  refine repeatWhile (J := v.PassesExpression ends) (fun w passed => kind ?_) (.refl v)
  have left := passed.noQuery noQuery
  refine ite (fun ended => pure ⟨passed, ?_⟩) fun inside => ?_
  · rcases Bool.or_eq_true_iff.mp ended with all | ends
    · exact .inl all
    · exact .inr (.inl ends)
  obtain ⟨notAll, goesOn⟩ : w.kind.endsEverything = false ∧ ends w.kind = false := by simpa using inside
  -- a word that begins a join or a locking clause is left to what encloses the expression
  refine atJoin fun isJoin single => ite (fun found => pure ⟨passed, .inr (.inr (single found))⟩) fun _ => ?_
  refine atLock fun isLock single => ite (fun found => pure ⟨passed, .inr (.inr (single found))⟩) fun _ => ?_
  refine ite (fun _ => ?_) fun notGroup => ite (fun isCase => ?_) fun notCase => ite (fun _ => ?_) fun _ => ?_
  · refine bind (nested.group left) fun _ x group => pure (passed.trans ?_)
    obtain ⟨inner, passes, inside⟩ := group
    exact ⟨_, passes, .group inside .nil⟩
  · refine bind (nested.cases left isCase) fun _ x cases => pure (passed.trans ?_)
    obtain ⟨inner, passes, inside⟩ := cases
    exact ⟨_, passes, .cases inside .nil⟩
  · exact bind (discarded (P := fun _ x => w.PassesOf (·.isNamePart = true) x) column) fun _ x name =>
      pure (passed.trans (name.name spares))
  · have isSingle : w.kind.isSingle = true := by simp [TokenKind.isSingle, notAll, notGroup, notCase]
    exact advance_then rfl (TokenKind.ne_endOfInput_of_isSingle isSingle) fun x passes =>
      pure (passed.trans (passes.single isSingle goesOn))

theorem group_succ (noQuery : v.NoQuery) : Walk.Yields d p (Walk.groupWithin (depth + 1)) v fun _ w =>
    ∃ inner, v.Passes (.symbol .leftParen :: (inner ++ [.symbol .rightParen])) w ∧ Balanced TokenKind.endsNothing inner := by
  rw [Walk.groupWithin]
  refine bind (expect rfl) fun _ w opened => ?_
  have opens := opened.2
  have left := opens.noQuery noQuery
  refine check _ (ite (fun isQuery => ?_) fun _ => ?_)
  · have isSelect : w.kind = .keyword .select := TokenKind.sameShape_keyword.mp isQuery
    have member := Progress.kind_mem (v := w) (by rw [isSelect]; decide)
    rw [isSelect] at member
    exact absurd member left
  have spares : TokenKind.SparesNames TokenKind.endsNothing := fun _ _ => rfl
  refine bind (repeatWhile (J := w.PassesExpression TokenKind.endsNothing) (K := w.PassesExpression TokenKind.endsNothing)
    (fun x passed => ?_) (.refl w)) fun _ x passed => ?_
  · refine bind (nested.expression spares (passed.noQuery left)) fun _ y more => atJoin fun isJoin single => ?_
    have passed' := passed.trans more.1
    -- between parentheses such a word is one more token of the expression
    refine ite (fun found => ?_) fun _ => pure passed'
    have isSingle := single found
    exact advance_then rfl (TokenKind.ne_endOfInput_of_isSingle isSingle) fun z passes =>
      pure (passed'.trans (passes.single isSingle rfl))
  · refine mono (expect rfl) fun _ y closed => ?_
    obtain ⟨inner, passes, inside⟩ := passed
    exact ⟨inner, opens.trans (passes.trans closed.2), inside⟩

theorem cases_succ (noQuery : v.NoQuery) (isCase : v.kind = .keyword .case) :
    Walk.Yields d p (Walk.caseWithin (depth + 1)) v fun _ w =>
      ∃ inner, v.Passes (.keyword .case :: (inner ++ [.keyword .end])) w ∧ Balanced TokenKind.isEndKeyword inner := by
  rw [Walk.caseWithin]
  have spares : TokenKind.SparesNames TokenKind.isEndKeyword := by
    intro k isPart
    cases k with
    | keyword => cases isPart
    | _ => rfl
  refine bind (advance (by rw [isCase]; decide)) fun opening w opens => ?_
  rw [isCase] at opens
  have left := opens.noQuery noQuery
  refine mono (repeatWhile (J := w.PassesExpression TokenKind.isEndKeyword)
    (K := fun x => ∃ inner, w.Passes (inner ++ [.keyword .end]) x ∧ Balanced TokenKind.isEndKeyword inner)
    (fun x passed => ?_) (.refl w)) fun _ x passed => ?_
  · refine bind (nested.expression spares (passed.noQuery left)) fun _ y read => kind ?_
    obtain ⟨more, stops⟩ := read
    have passed' := passed.trans more
    refine ite (fun isEnd => ?_) fun notEnd => ite (fun _ => fails Walk.failAt_fails) fun notAll => ?_
    · obtain ⟨inner, before, balanced⟩ := passed'
      exact advance_then isEnd (by decide) fun z passes => pure ⟨inner, before.trans passes, balanced⟩
    · have goesOn : TokenKind.isEndKeyword y.kind = false := decide_eq_false notEnd
      have isSingle : y.kind.isSingle = true := by
        rcases stops with all | ends | single
        · exact absurd all notAll
        · rw [goesOn] at ends
          cases ends
        · exact single
      exact advance_then rfl (TokenKind.ne_endOfInput_of_isSingle isSingle) fun z passes =>
        pure (passed'.trans (passes.single isSingle goesOn))
  · obtain ⟨inner, passes, inside⟩ := passed
    exact ⟨inner, opens.trans passes, inside⟩

omit nested in
theorem all : ∀ depth, PassesBalanced d p depth
  | 0 => zero
  | depth + 1 => {
      expression := fun spares _ noQuery => (all depth).expression_succ spares noQuery
      group := fun noQuery => (all depth).group_succ noQuery
      cases := fun noQuery isCase => (all depth).cases_succ noQuery isCase }

end PassesBalanced

/-- An expression without queries passes balanced tokens and records nothing of the rows. -/
theorem Walk.Yields.expression {ends : TokenKind → Bool} (spares : TokenKind.SparesNames ends) (noQuery : v.NoQuery) :
    Walk.Yields d p (Walk.expression ends) v fun _ w => v.PassesExpression ends w :=
  depth fun n => mono ((PassesBalanced.all n).expression spares noQuery) fun _ _ ended => ended.1

end SqlSharding.Sql
