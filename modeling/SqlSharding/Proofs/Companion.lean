import Mathlib.Data.List.Forall2
import SqlSharding.Proofs.Cursors
import SqlSharding.Sql.Query

/-!
# Walks in company

The same walk over two texts takes the same turns as long as it cannot tell their tokens apart. This module says what it
means that one walk follows another, gives the rules by which larger walks follow each other when their parts do, and
names the facts about two related states from which every walk of a statement follows its companion. An invariant of one
walk is the case of a walk that follows itself.
-/

namespace SqlSharding.Sql

/-! ## Tokens that a walk cannot tell apart -/

/-- Two kinds that differ at most in a name or in a number, both numbers being usable as bounds or neither. -/
inductive TokenKind.Alike : TokenKind → TokenKind → Prop
  | same (k : TokenKind) : Alike k k
  | identifier (name name' : String) : Alike (.identifier name) (.identifier name')
  | quotedIdentifier (name name' : String) (style : QuoteStyle) :
      Alike (.quotedIdentifier name style) (.quotedIdentifier name' style)
  | integer (i j : Int64) (sign : 0 ≤ i ↔ 0 ≤ j) : Alike (.integer i) (.integer j)

theorem TokenKind.sameShape_symbol {k : TokenKind} {s : Symbol} : k.sameShape (.symbol s) = true ↔ k = .symbol s := by
  cases k with
  | symbol t => rw [sameShape, decide_eq_true_iff, symbol.injEq]
  | _ => exact ⟨nofun, nofun⟩

theorem TokenKind.sameShape_keyword {k : TokenKind} {w : Keyword} : k.sameShape (.keyword w) = true ↔ k = .keyword w := by
  cases k with
  | keyword v => rw [sameShape, decide_eq_true_iff, keyword.injEq]
  | _ => exact ⟨nofun, nofun⟩

namespace TokenKind.Alike

variable {k k' : TokenKind}

theorem keyword_iff (alike : Alike k k') (w : Keyword) : k = .keyword w ↔ k' = .keyword w := by
  cases alike <;> simp

theorem symbol_iff (alike : Alike k k') (s : Symbol) : k = .symbol s ↔ k' = .symbol s := by
  cases alike <;> simp

theorem endOfInput_iff (alike : Alike k k') : k = .endOfInput ↔ k' = .endOfInput := by
  cases alike <;> simp

theorem sameShape_eq (alike : Alike k k') (l : TokenKind) : k.sameShape l = k'.sameShape l := by
  cases alike with
  | same => rfl
  | identifier | quotedIdentifier | integer => cases l <;> rfl

theorem isIdentifier_eq (alike : Alike k k') : k.isIdentifier = k'.isIdentifier := by
  cases alike <;> rfl

end TokenKind.Alike

/-- Two cursors on tokens that a walk cannot tell apart, with as much before and ahead of them. -/
structure Cursor.Alike (c c' : Cursor) : Prop where
  kind : c.kind.Alike c'.kind
  dialect : c.dialect = c'.dialect
  remaining : c.remaining = c'.remaining
  parameterIndex : c.parameterIndex = c'.parameterIndex

theorem Cursor.Alike.isAtEnd_eq {c c' : Cursor} (alike : c.Alike c') : c.isAtEnd = c'.isAtEnd := by
  rw [Bool.eq_iff_iff]
  simpa [Cursor.isAtEnd] using alike.kind.endOfInput_iff

theorem Cursor.Alike.check_eq {c c' : Cursor} (alike : c.Alike c') (k : TokenKind) : c.check k = c'.check k :=
  alike.kind.sameShape_eq k

theorem Cursor.Alike.checkAny_eq {c c' : Cursor} (alike : c.Alike c') (ks : List TokenKind) :
    c.checkAny ks = c'.checkAny ks := by
  have same : c.check = c'.check := funext alike.check_eq
  rw [Cursor.checkAny, Cursor.checkAny, same]

/-! ## Following -/

/-- A flag that is never set unless the other one is. -/
class Weaker (x y : Bool) : Prop where
  imp : x = true → y = true

namespace Weaker

variable {c x y z : Bool}

instance refl : Weaker x x := ⟨id⟩
instance ofFalse : Weaker false x := ⟨nofun⟩
instance ofTrue : Weaker x true := ⟨fun _ => rfl⟩
instance or : Weaker (false || x) x := ⟨id⟩
instance condTrue : Weaker (cond true x y) x := ⟨id⟩
instance condFalse : Weaker (cond false x y) y := ⟨id⟩
instance toOr [imp : Weaker x y] : Weaker x (c || y) := ⟨fun h => by simp [imp.imp h]⟩
instance ofCond [first : Weaker x z] [second : Weaker y z] : Weaker (cond c x y) z := by
  cases c with
  | true => exact first
  | false => exact second
instance toCondTrue : Weaker x (cond true x y) := ⟨id⟩
instance toCondFalse : Weaker y (cond false x y) := ⟨id⟩

end Weaker

/-- How a second walk keeps company with a first one. `Beside` relates their states while it does. A state of the first
walk is `Lost` when its walk cannot end as the second one takes for granted; without the flag it is lost only as long as
the current token is not read as the name of a table. The other relations are between what the two walks have read. -/
structure Company where
  Beside : WalkState → WalkState → Prop
  Lost : Bool → WalkState → Prop
  Columns : Column → Column → Prop
  Operands : Operand → Operand → Prop
  Conditions : Conditions → Conditions → Prop
  loosen : ∀ {s}, Lost true s → Lost false s

namespace Company

variable {C : Company} {α β σ : Type} {before : Bool}

theorem lost_mono {b b' : Bool} {s : WalkState} (le : b = true → b' = true) (lost : C.Lost b' s) : C.Lost b s := by
  cases b with
  | true => rwa [le rfl] at lost
  | false =>
    cases b' with
    | true => exact C.loosen lost
    | false => exact lost

/-- Wherever the first walk succeeds, the second one does with a result of the same kind, or the first one is lost. The
flags say how a lost walk is lost before and after, the latter depending on its result. -/
def Follows (C : Company) (before : Bool) (m m' : Walk α) (after : α → Bool) (Same : α → α → Prop) : Prop :=
  ∀ s a t, m s = .ok a t →
    (C.Lost before s → C.Lost (after a) t) ∧
    ∀ s', C.Beside s s' → C.Lost (after a) t ∨ ∃ a' t', m' s' = .ok a' t' ∧ Same a a' ∧ C.Beside t t'

namespace Follows

variable {m m' : Walk α} {after : α → Bool} {Same : α → α → Prop}

theorem bind {f f' : α → Walk β} {mid : α → Bool} {after : β → Bool} {Same' : β → β → Prop}
    (first : C.Follows before m m' mid Same) (total : ∀ a, ∃ a', Same a a')
    (next : ∀ a a', Same a a' → C.Follows (mid a) (f a) (f' a') after Same') :
    C.Follows before (m >>= f) (m' >>= f') after Same' := by
  intro s b u run
  obtain ⟨a, t, firstRun, nextRun⟩ := Walk.bind_eq_ok_iff.mp run
  obtain ⟨lost, beside⟩ := first s a t firstRun
  have staysLost : C.Lost (mid a) t → C.Lost (after b) u := by
    obtain ⟨a', same⟩ := total a
    exact (next a a' same t b u nextRun).1
  refine ⟨fun was => staysLost (lost was), fun s' pair => ?_⟩
  rcases beside s' pair with now | ⟨a', t', firstRun', same, pair⟩
  · exact .inl (staysLost now)
  · rcases (next a a' same t b u nextRun).2 t' pair with now | ⟨b', u', nextRun', same', pair⟩
    · exact .inl now
    · exact .inr ⟨b', u', Walk.bind_eq_ok_iff.mpr ⟨a', t', firstRun', nextRun'⟩, same', pair⟩

/-- Two walks in sequence, of which the first gives the same result to both. -/
theorem seq {f f' : α → Walk β} {mid : α → Bool} {after : β → Bool} {Same' : β → β → Prop}
    (first : C.Follows before m m' mid Eq) (next : ∀ a, C.Follows (mid a) (f a) (f' a) after Same') :
    C.Follows before (m >>= f) (m' >>= f') after Same' :=
  first.bind (fun a => ⟨a, rfl⟩) fun a _ same => same ▸ next a

theorem pure {a a' : α} (same : Same a a') [Weaker (after a) before] :
    C.Follows before (Pure.pure a) (Pure.pure a') after Same := by
  intro s b u run
  obtain ⟨rfl, rfl⟩ := Walk.pure_eq_ok_iff.mp run
  exact ⟨C.lost_mono Weaker.imp, fun s' pair => .inr ⟨a', s', rfl, same, pair⟩⟩

theorem map {f f' : α → β} {after : β → Bool} {Same' : β → β → Prop} {mid : α → Bool}
    (follows : C.Follows before m m' mid Same) (same : ∀ a a', Same a a' → Same' (f a) (f' a'))
    [∀ a, Weaker (after (f a)) (mid a)] :
    C.Follows before (f <$> m) (f' <$> m') after Same' := by
  intro s b u run
  obtain ⟨a, ofM, rfl⟩ := Walk.map_eq_ok_iff.mp run
  obtain ⟨lost, beside⟩ := follows s a u ofM
  refine ⟨fun was => C.lost_mono Weaker.imp (lost was), fun s' pair => ?_⟩
  rcases beside s' pair with now | ⟨a', t', run', both, pair⟩
  · exact .inl (C.lost_mono Weaker.imp now)
  · exact .inr ⟨f' a', t', Walk.map_eq_ok_iff.mpr ⟨a', run', rfl⟩, same a a' both, pair⟩

theorem discard {flag : Bool} (follows : C.Follows before m m' (fun _ => flag) Same) :
    C.Follows before (discard m) (discard m') (fun _ => flag) Eq :=
  follows.map fun _ _ _ => rfl

/-- A walk that cannot succeed. -/
theorem fails (never : Walk.Fails m) : C.Follows before m m' after Same :=
  fun s a t run => absurd run (never s a t)

theorem ite {c c' : Prop} [Decidable c] [Decidable c'] {n n' : Walk α} (iff : c ↔ c')
    (yes : c → C.Follows before m m' after Same) (no : ¬ c → C.Follows before n n' after Same) :
    C.Follows before (if c then m else n) (if c' then m' else n') after Same := by
  by_cases h : c
  · rw [if_pos h, if_pos (iff.mp h)]
    exact yes h
  · rw [if_neg h, if_neg fun h' => h (iff.mpr h')]
    exact no h

/-- The same choice in both walks. -/
theorem branch {c : Prop} [Decidable c] {n n' : Walk α} (yes : c → C.Follows before m m' after Same)
    (no : ¬ c → C.Follows before n n' after Same) :
    C.Follows before (if c then m else n) (if c then m' else n') after Same :=
  ite Iff.rfl yes no

/-- A walk that only looks at the state. -/
theorem look (stays : ∀ s a t, m s = .ok a t → t = s)
    (agree : ∀ s s' a, C.Beside s s' → m s = .ok a s → ∃ a', m' s' = .ok a' s' ∧ Same a a') :
    C.Follows before m m' (fun _ => before) Same := by
  intro s a t run
  obtain rfl := stays s a t run
  refine ⟨id, fun s' pair => .inr ?_⟩
  obtain ⟨a', run', same⟩ := agree t s' a pair run
  exact ⟨a', s', run', same, pair⟩

/-- The result of the first walk says more of how it is lost. -/
theorem sharpen {after' : α → Bool} (follows : C.Follows before m m' after Same)
    (sharp : ∀ s a t, m s = .ok a t → C.Lost (after a) t → C.Lost (after' a) t) :
    C.Follows before m m' after' Same := by
  intro s a t run
  obtain ⟨lost, beside⟩ := follows s a t run
  exact ⟨fun was => sharp s a t run (lost was), fun s' pair => (beside s' pair).imp_left (sharp s a t run)⟩

/-- Less is asked of how the first walk is lost, before as after. -/
theorem weaken {before' : Bool} {after' : α → Bool} [Weaker before before'] [atEnd : ∀ a, Weaker (after' a) (after a)]
    (follows : C.Follows before m m' after Same) : C.Follows before' m m' after' Same := by
  intro s a t run
  obtain ⟨lost, beside⟩ := follows s a t run
  exact ⟨fun was => C.lost_mono (atEnd a).imp (lost (C.lost_mono Weaker.imp was)),
    fun s' pair => (beside s' pair).imp_left (C.lost_mono (atEnd a).imp)⟩

/-- What needs no first walk lost for good can begin anywhere. -/
theorem anywhere (follows : C.Follows false m m' after Same) : C.Follows before m m' after Same :=
  follows.weaken

/-- The way in which the first walk is lost is forgotten. -/
theorem forget {mid : α → Bool} (follows : C.Follows before m m' mid Same) :
    C.Follows before m m' (fun _ => false) Same :=
  follows.weaken

/-- A choice before more steps. -/
theorem join {c : Prop} [Decidable c] {n n' : Walk α} {f f' : α → Walk β} {x : α → Bool} {after : β → Bool}
    {Same' : β → β → Prop} (yes : c → C.Follows before m m' x Eq) (no : ¬ c → C.Follows before n n' x Eq)
    (next : ∀ a, C.Follows (x a) (f a) (f' a) after Same') :
    C.Follows before (if c then m >>= f else n >>= f) (if c then m' >>= f' else n' >>= f') after Same' :=
  branch (fun h => (yes h).seq next) fun h => (no h).seq next

/-- A step before more steps that is left out in both walks or in none. -/
theorem perhaps {c : Prop} [Decidable c] {m m' : Walk Unit} {f f' : Unit → Walk β} {x : Bool} {after : β → Bool}
    {Same' : β → β → Prop} (yes : c → C.Follows before m m' (fun _ => x) Eq)
    (next : C.Follows x (f ()) (f' ()) after Same') [Weaker x before] :
    C.Follows before (if c then m >>= f else f ()) (if c then m' >>= f' else f' ()) after Same' :=
  branch (fun h => (yes h).seq fun _ => next) fun _ => next.weaken

theorem iterate {f f' : σ → Walk (Bool × σ)} {S : σ → σ → Prop} {last : Bool} (total : ∀ x, ∃ x', S x x')
    (round : ∀ x x', S x x' →
      C.Follows before (f x) (f' x') (fun r => cond r.1 before last) (fun r r' => r.1 = r'.1 ∧ S r.2 r'.2)) :
    ∀ n x x', S x x' → C.Follows before (Walk.iterate f n x) (Walk.iterate f' n x') (fun _ => last) S
  | 0, _, _, _ => fails Walk.failTooDeep_fails
  | n + 1, x, x', same => by
    rw [Walk.iterate, Walk.iterate]
    refine (round x x' same).bind (fun (again, y) => ?_) ?_
    · obtain ⟨y', both⟩ := total y
      exact ⟨(again, y'), rfl, both⟩
    · rintro ⟨again, y⟩ ⟨_, y'⟩ ⟨rfl, both⟩
      cases again with
      | true => exact iterate total round n y y' both
      | false => exact pure both

end Follows
/-! ## Steady companies -/

/-- A condition beside one of the other walk. -/
structure SameCondition (C : Company) (x x' : Condition) : Prop where
  column : C.Columns x.column x'.column
  operator : x.operator = x'.operator
  values : List.Forall₂ C.Operands x.values x'.values

end Company

/-- Passes a table name with its alias and records the table. -/
def Walk.aliasedTable : Walk Unit := do
  let name ← qualifiedName
  let aliasName ← alias?
  record (·.addTable name aliasName)

/-- The facts about looking at a token and passing it from which walks follow that record nothing and know no locking
clause. -/
structure Company.Abreast (C : Company) : Prop where
  tighten : ∀ {s}, C.Lost false s → s.cursor.kind.isIdentifier = false → C.Lost true s
  alike : ∀ {s s'}, C.Beside s s' → s.cursor.Alike s'.cursor
  looksAhead : ∀ {s s' k}, C.Beside s s' → s.cursor.peek = .ok k → ∃ k', s'.cursor.peek = .ok k' ∧ k.Alike k'
  advances : C.Follows false Walk.advance Walk.advance (fun _ => true) (fun t t' => t.kind.Alike t'.kind)

/-- The facts from which walks that record nothing follow. -/
structure Company.InStep (C : Company) : Prop extends C.Abreast where
  seesLock : C.Follows false Walk.atLock Walk.atLock (fun _ => false) Eq

/-- The facts about the smallest parts of clauses from which the walks over queries follow. The pagination clauses are
asked for with the given recording flags only. -/
structure Company.Steady (C : Company) (Records : Bool → Prop) : Prop extends C.InStep where
  columns_total : ∀ x, ∃ x', C.Columns x x'
  operands_total : ∀ x, ∃ x', C.Operands x x'
  conditions_total : ∀ x, ∃ x', C.Conditions x x'
  lost_conditions : ∀ {b s} cs, C.Lost b s → C.Lost b { s with statement := { s.statement with conditions := cs } }
  conditions : ∀ {s s'}, C.Beside s s' → C.Conditions s.statement.conditions s'.statement.conditions
  setConditions : ∀ {s s' cs cs'}, C.Beside s s' → C.Conditions cs cs' →
    C.Beside { s with statement := { s.statement with conditions := cs } }
      { s' with statement := { s'.statement with conditions := cs' } }
  addCondition : ∀ {cs cs' x x'}, C.Conditions cs cs' → C.SameCondition x x' → C.Conditions (cs.add x) (cs'.add x')
  markUnusable : ∀ {cs cs'}, C.Conditions cs cs' → C.Conditions cs.markUnusable cs'.markUnusable
  readsColumn : C.Follows false Walk.column Walk.column (fun _ => true) (Option.Rel C.Columns)
  readsValue : C.Follows false Walk.value? Walk.value? (fun _ => false) (Option.Rel C.Operands)
  readsTable : C.Follows true Walk.aliasedTable Walk.aliasedTable (fun _ => false) Eq
  records_false : Records false
  readsLimit : ∀ r, Records r → C.Follows false (Walk.limitClause r) (Walk.limitClause r) (fun _ => false) Eq
  readsOffsetFetch : ∀ r, Records r →
    C.Follows false (Walk.offsetFetchClause r) (Walk.offsetFetchClause r) (fun _ => false) Eq
  readsTop : ∀ r, C.Follows false (Walk.topClause r) (Walk.topClause r) (fun _ => true) Eq

end SqlSharding.Sql
