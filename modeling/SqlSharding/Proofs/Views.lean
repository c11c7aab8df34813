import SqlSharding.Proofs.Cursors
import SqlSharding.Sql.Query

/-!
# What a walk sees

A walk over conditions sees the kinds of the tokens that are left, the number of placeholders behind, and the conditions
kept so far. What it makes of a view is the same for all states that show it, and it never fails there.
-/

namespace SqlSharding.Sql

/-- The placeholders behind, the kinds of the tokens that are left, and the conditions kept so far. -/
structure View where
  placeholders : Nat
  kinds : List TokenKind
  conditions : Conditions

namespace View

/-- The kind of the current token. -/
def kind (v : View) : TokenKind := v.kinds.head?.getD .endOfInput

end View

/-- A state over some last tokens of a text, as a walk sees it. -/
def WalkState.Shows (d : Dialect) (p : Place) (text : List Token) (v : View) (s : WalkState) : Prop :=
  ∃ ts, ts <:+ text ∧ s.cursor = .along d p v.placeholders ts ∧ ts.map (·.kind) = v.kinds ∧
    s.statement.conditions = v.conditions

/-- From every state that shows a view, a walk ends with a certain result in a state that shows another view. -/
def Walk.Reaches (d : Dialect) (p : Place) (text : List Token) (m : Walk α) (v : View) (Q : α → Prop) (w : View) : Prop :=
  ∀ s, s.Shows d p text v → ∃ a u, m s = .ok a u ∧ Q a ∧ u.Shows d p text w

namespace Walk.Reaches

variable {d : Dialect} {p : Place} {text : List Token} {α β σ : Type} {m : Walk α} {v w x : View} {Q : α → Prop}
  {R : β → Prop}

theorem pure {a : α} (holds : Q a) : Reaches d p text (Pure.pure a) v Q v :=
  fun s shows => ⟨a, s, rfl, holds, shows⟩

theorem bind {f : α → Walk β} (first : Reaches d p text m v Q w) (next : ∀ a, Q a → Reaches d p text (f a) w R x) :
    Reaches d p text (m >>= f) v R x := by
  intro s shows
  obtain ⟨a, t, run, holds, shows⟩ := first s shows
  obtain ⟨b, u, run', holds', shows'⟩ := next a holds t shows
  exact ⟨b, u, bind_eq_ok_iff.mpr ⟨a, t, run, run'⟩, holds', shows'⟩

/-- A walk with a known result before another one. -/
theorem seq {a : α} {f : α → Walk β} (first : Reaches d p text m v (· = a) w) (next : Reaches d p text (f a) w R x) :
    Reaches d p text (m >>= f) v R x :=
  first.bind fun _ same => same ▸ next

theorem mono {Q' : α → Prop} (reaches : Reaches d p text m v Q w) (weaker : ∀ a, Q a → Q' a) :
    Reaches d p text m v Q' w := by
  intro s shows
  obtain ⟨a, u, run, holds, shows⟩ := reaches s shows
  exact ⟨a, u, run, weaker a holds, shows⟩

theorem map {f : α → β} (reaches : Reaches d p text m v Q w) (result : ∀ a, Q a → R (f a)) :
    Reaches d p text (f <$> m) v R w := by
  intro s shows
  obtain ⟨a, u, run, holds, shows⟩ := reaches s shows
  exact ⟨f a, u, map_eq_ok_iff.mpr ⟨a, run, rfl⟩, result a holds, shows⟩

theorem discarded (reaches : Reaches d p text m v Q w) : Reaches d p text (discard m) v (· = ()) w :=
  reaches.map fun _ _ => rfl

theorem yes {c : Prop} [Decidable c] {n : Walk α} (h : c) (reaches : Reaches d p text m v Q w) :
    Reaches d p text (if c then m else n) v Q w := by rwa [if_pos h]

theorem no {c : Prop} [Decidable c] {n : Walk α} (h : ¬ c) (reaches : Reaches d p text n v Q w) :
    Reaches d p text (if c then m else n) v Q w := by rwa [if_neg h]

/-- A look at a state finds what the view tells. -/
theorem look {f : WalkState → α} (sees : ∀ s, s.Shows d p text v → Q (f s)) :
    Reaches d p text (fun s => .ok (f s) s) v Q v :=
  fun s shows => ⟨f s, s, rfl, sees s shows, shows⟩

theorem kind_eq {s : WalkState} (shows : s.Shows d p text v) : s.cursor.kind = v.kind := by
  obtain ⟨ts, -, atCursor, kinds, -⟩ := shows
  rw [atCursor, View.kind, ← kinds]
  cases ts <;> rfl

theorem kind : Reaches d p text Walk.kind v (· = v.kind) v := look fun _ => kind_eq

theorem check (k : TokenKind) : Reaches d p text (Walk.check k) v (· = v.kind.sameShape k) v :=
  look fun _ shows => by rw [Cursor.check, kind_eq shows]

theorem checkAny (ks : List TokenKind) : Reaches d p text (Walk.checkAny ks) v (· = ks.any v.kind.sameShape) v := by
  refine look fun s shows => ?_
  have same : s.cursor.check = v.kind.sameShape := by
    funext k
    rw [Cursor.check, kind_eq shows]
  rw [Cursor.checkAny, same]

theorem parameterIndex : Reaches d p text Walk.parameterIndex v (· = v.placeholders) v := by
  refine look fun s shows => ?_
  obtain ⟨ts, -, atCursor, -⟩ := shows
  rw [atCursor, Cursor.along_parameterIndex]

theorem statement : Reaches d p text Walk.statement v (·.conditions = v.conditions) v :=
  look fun _ ⟨_, _, _, _, same⟩ => same

/-- Changing the conditions. -/
theorem record {f : Statement → Statement} (cs : Conditions) (changes : ∀ s, s.conditions = v.conditions → (f s).conditions = cs) :
    Reaches d p text (Walk.record f) v (· = ()) { v with conditions := cs } := by
  rintro s ⟨ts, suffix, atCursor, kinds, same⟩
  exact ⟨(), _, rfl, rfl, ts, suffix, atCursor, kinds, changes _ same⟩

section

variable (proper : Proper text) {k l : TokenKind} {ks : List TokenKind} {n : Nat} {cs : Conditions}

include proper

/-- Passing a token. -/
theorem advance : Reaches d p text Walk.advance ⟨n, k :: ks, cs⟩ (·.kind = k) ⟨Cursor.countAfter n k, ks, cs⟩ := by
  rintro s ⟨ts, suffix, atCursor, kinds, same⟩
  obtain ⟨t, ts, rfl, rfl, rfl⟩ := List.map_eq_cons_iff.mp kinds
  have step := Cursor.along_step (d := d) (p := p) (n := n) fun u member => proper u (suffix.subset member)
  refine ⟨t, _, advance_eq_ok_iff.mpr ⟨.along d p (Cursor.countAfter n t.kind) ts, ?_, ?_, rfl⟩, rfl, ts,
    (List.suffix_cons t ts).trans suffix, rfl, rfl, same⟩
  · rw [atCursor, step]
  · rw [atCursor, Cursor.along_cons_current]

theorem peek : Reaches d p text Walk.peek ⟨n, k :: ks, cs⟩ (· = ks.head?.getD .endOfInput) ⟨n, k :: ks, cs⟩ := by
  rintro s ⟨ts, suffix, atCursor, kinds, same⟩
  obtain ⟨t, ts, rfl, rfl, rfl⟩ := List.map_eq_cons_iff.mp kinds
  have inText : Proper (t :: ts) := fun u member => proper u (suffix.subset member)
  have ahead : s.cursor.peek = .ok ((ts.map (·.kind)).head?.getD .endOfInput) := by
    rw [atCursor]
    cases ts with
    | nil => exact Cursor.along_peek_last inText
    | cons u ts => exact Cursor.along_peek inText
  refine ⟨_, s, ?_, rfl, t :: ts, suffix, atCursor, rfl, same⟩
  rw [Walk.peek, ahead]

theorem eat (same : k.sameShape l = true) :
    Reaches d p text (Walk.eat l) ⟨n, k :: ks, cs⟩ (· = true) ⟨Cursor.countAfter n k, ks, cs⟩ :=
  (check l).seq (.yes same ((advance proper).discarded.seq (.pure rfl)))

omit proper in
theorem eat_not {v : View} (differs : v.kind.sameShape l = false) : Reaches d p text (Walk.eat l) v (· = false) v :=
  (check l).seq (.no (by simp [differs]) (.pure rfl))

theorem eatAny {ls : List TokenKind} (same : ls.any k.sameShape = true) :
    Reaches d p text (Walk.eatAny ls) ⟨n, k :: ks, cs⟩ (· = true) ⟨Cursor.countAfter n k, ks, cs⟩ :=
  (checkAny ls).seq (.yes same ((advance proper).discarded.seq (.pure rfl)))

omit proper in
theorem eatAny_not {v : View} {ls : List TokenKind} (differs : ls.any v.kind.sameShape = false) :
    Reaches d p text (Walk.eatAny ls) v (· = false) v :=
  (checkAny ls).seq (.no (by simp [differs]) (.pure rfl))

theorem expect (same : k.sameShape l = true) :
    Reaches d p text (Walk.expect l) ⟨n, k :: ks, cs⟩ (·.kind = k) ⟨Cursor.countAfter n k, ks, cs⟩ :=
  (check l).seq (.yes same (advance proper))

/-- A loop has enough rounds for the tokens that are left. -/
theorem repeatFrom {f : σ → Walk (Bool × σ)} {y : σ} {Q : σ → Prop} {v w : View}
    (rounds : ∀ fuel, v.kinds.length < fuel → Reaches d p text (iterate f fuel y) v Q w) :
    Reaches d p text (Walk.repeatFrom y f) v Q w := by
  rintro s ⟨ts, suffix, atCursor, kinds, same⟩
  have inText : Proper ts := fun u member => proper u (suffix.subset member)
  have enough : v.kinds.length < s.cursor.remaining + 1 := by
    rw [atCursor, Cursor.along_remaining inText, ← kinds, List.length_map]
    exact Nat.lt_succ_self _
  exact rounds _ enough s ⟨ts, suffix, atCursor, kinds, same⟩

/-- A loop goes on after a round that has passed tokens. -/
theorem repeatWhile_again {m : Walk Bool} {u v w : View} {Q : Unit → Prop}
    (round : Reaches d p text m u (· = true) v) (shorter : v.kinds.length < u.kinds.length)
    (later : Reaches d p text (repeatWhile m) v Q w) : Reaches d p text (repeatWhile m) u Q w := by
  intro s shows
  obtain ⟨_, t, first, rfl, shows'⟩ := round s shows
  obtain ⟨⟨⟩, x, run, holds, ended⟩ := later t shows'
  refine ⟨(), x, ?_, holds, ended⟩
  have left {s : WalkState} {v : View} : s.Shows d p text v → s.cursor.remaining = v.kinds.length := by
    rintro ⟨ts, suffix, atCursor, kinds, -⟩
    rw [atCursor, Cursor.along_remaining fun t member => proper t (suffix.subset member), ← kinds, List.length_map]
  obtain ⟨_, _, ⟨⟩, rounds⟩ := bind_eq_ok_iff.mp run
  refine bind_eq_ok_iff.mpr ⟨s.cursor, s, rfl, bind_eq_ok_iff.mpr ⟨(true, ()), t, ?_, iterate_mono ?_ rounds⟩⟩
  · exact map_eq_ok_iff.mpr ⟨true, first, rfl⟩
  · rw [left shows, left shows']
    exact shorter

omit proper in
theorem repeatWhile_stops {m : Walk Bool} {v w : View} (round : Reaches d p text m v (· = false) w) :
    Reaches d p text (repeatWhile m) v (· = ()) w := by
  intro s shows
  obtain ⟨_, t, last, rfl, ended⟩ := round s shows
  refine ⟨(), t, bind_eq_ok_iff.mpr ⟨s.cursor, s, rfl, bind_eq_ok_iff.mpr ⟨(false, ()), t, ?_, rfl⟩⟩, rfl, ended⟩
  exact map_eq_ok_iff.mpr ⟨false, last, rfl⟩

end

end Walk.Reaches

end SqlSharding.Sql
