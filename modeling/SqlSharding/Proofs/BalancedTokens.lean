import SqlSharding.Sql.Query

/-!
# Balanced tokens

An expression without queries consists of single tokens, groups in parentheses and `CASE` expressions. Where it ends can be told
from its tokens, so expressions with commas between them, and rows of them in parentheses, can be taken apart in one way only.
-/

namespace SqlSharding.Sql

/-- A token that neither ends every expression nor opens a part of one. -/
def TokenKind.isSingle (k : TokenKind) : Bool := !k.endsEverything && k ≠ .symbol .leftParen && k ≠ .keyword .case

theorem TokenKind.ne_endOfInput_of_isSingle {k : TokenKind} (single : k.isSingle = true) : k ≠ .endOfInput := by
  rintro rfl
  cases single

/-- Tokens of an expression before one of those that end it: groups and `CASE` expressions in it are closed. In a group nothing
else ends an expression, and in a `CASE` expression its `END` does. -/
inductive Balanced : (TokenKind → Bool) → List TokenKind → Prop
  | nil {ends : TokenKind → Bool} : Balanced ends []
  | single {ends : TokenKind → Bool} {k : TokenKind} {ks : List TokenKind} (single : k.isSingle = true)
    (goesOn : ends k = false) (tail : Balanced ends ks) : Balanced ends (k :: ks)
  | group {ends : TokenKind → Bool} {inner ks : List TokenKind} (inside : Balanced TokenKind.endsNothing inner)
    (tail : Balanced ends ks) : Balanced ends (.symbol .leftParen :: (inner ++ .symbol .rightParen :: ks))
  | cases {ends : TokenKind → Bool} {inner ks : List TokenKind} (inside : Balanced TokenKind.isEndKeyword inner)
    (tail : Balanced ends ks) : Balanced ends (.keyword .case :: (inner ++ .keyword .end :: ks))

/-- What an expression does not go on over. -/
def Ended (ends : TokenKind → Bool) (r : List TokenKind) : Prop :=
  ∀ k ∈ r.head?, k.endsEverything = true ∨ k.isSingle = true ∧ ends k = true

variable {ends : TokenKind → Bool} {k : TokenKind} {ks es fs r r' : List TokenKind}

theorem ended_cons_of_endsEverything (closes : k.endsEverything = true) : Ended ends (k :: r) := by
  rintro _ ⟨⟩
  exact .inl closes

theorem ended_comma : Ended TokenKind.isComma (.symbol .comma :: r) := by
  rintro _ ⟨⟩
  exact .inr ⟨rfl, rfl⟩

theorem ended_end : Ended TokenKind.isEndKeyword (.keyword .end :: r) := by
  rintro _ ⟨⟩
  exact .inr ⟨rfl, rfl⟩

namespace Balanced

theorem append (first : Balanced ends es) (second : Balanced ends fs) : Balanced ends (es ++ fs) := by
  induction first with
  | nil => exact second
  | single single goesOn _ ih => exact .single single goesOn (ih second)
  | group inside _ _ ih =>
    rw [List.cons_append, List.append_assoc]
    exact .group inside (ih second)
  | cases inside _ _ ih =>
    rw [List.cons_append, List.append_assoc]
    exact .cases inside (ih second)

theorem of_singles (single : ∀ k ∈ ks, k.isSingle = true ∧ ends k = false) : Balanced ends ks := by
  induction ks with
  | nil => exact .nil
  | cons k ks ih =>
    obtain ⟨isSingle, goesOn⟩ := single k List.mem_cons_self
    exact .single isSingle goesOn (ih fun l member => single l (List.mem_cons_of_mem k member))

/-- An expression goes on over its first token. -/
theorem eq_nil_of_ended (balanced : Balanced ends ks) (ended : Ended ends (ks ++ r)) : ks = [] := by
  cases balanced with
  | nil => rfl
  | @single _ k _ single goesOn =>
    rcases ended k rfl with closes | ⟨-, ends⟩
    · simp [TokenKind.isSingle, closes] at single
    · rw [goesOn] at ends
      cases ends
  | group | cases =>
    rcases ended _ rfl with closes | ⟨single, -⟩
    · cases closes
    · cases single

/-- An expression ends at one place only. -/
theorem unique (first : Balanced ends es) (second : Balanced ends fs) (ended : Ended ends r) (ended' : Ended ends r')
    (same : es ++ r = fs ++ r') : es = fs ∧ r = r' := by
  induction first generalizing fs r r' with
  | nil =>
    obtain rfl : r = fs ++ r' := same
    obtain rfl := second.eq_nil_of_ended ended
    exact ⟨rfl, rfl⟩
  | @single ends k ks isSingle goesOn tail ih =>
    cases second with
    | nil =>
      obtain rfl : k :: ks ++ r = r' := same
      cases (single isSingle goesOn tail).eq_nil_of_ended ended'
    | single _ _ tail' =>
      obtain ⟨rfl, rest⟩ := List.cons.inj same
      obtain ⟨rfl, rfl⟩ := ih tail' ended ended' rest
      exact ⟨rfl, rfl⟩
    | group | cases =>
      obtain ⟨rfl, -⟩ := List.cons.inj same
      cases isSingle
  | @group ends inner ks inside tail ihInside ih =>
    cases second with
    | nil =>
      obtain rfl : _ ++ r = r' := same
      cases (group inside tail).eq_nil_of_ended ended'
    | single isSingle =>
      obtain ⟨rfl, -⟩ := List.cons.inj same
      cases isSingle
    | group inside' tail' =>
      rw [List.cons_append, List.cons_append, List.append_assoc, List.append_assoc] at same
      have closed {r : List TokenKind} : Ended TokenKind.endsNothing (.symbol .rightParen :: r) :=
        ended_cons_of_endsEverything rfl
      obtain ⟨rfl, behind⟩ := ihInside inside' closed closed (List.cons.inj same).2
      obtain ⟨rfl, rfl⟩ := ih tail' ended ended' (List.cons.inj behind).2
      exact ⟨rfl, rfl⟩
    | cases => cases (List.cons.inj same).1
  | @cases ends inner ks inside tail ihInside ih =>
    cases second with
    | nil =>
      obtain rfl : _ ++ r = r' := same
      cases (Balanced.cases inside tail).eq_nil_of_ended ended'
    | single isSingle =>
      obtain ⟨rfl, -⟩ := List.cons.inj same
      cases isSingle
    | group => cases (List.cons.inj same).1
    | cases inside' tail' =>
      rw [List.cons_append, List.cons_append, List.append_assoc, List.append_assoc] at same
      obtain ⟨rfl, behind⟩ := ihInside inside' ended_end ended_end (List.cons.inj same).2
      obtain ⟨rfl, rfl⟩ := ih tail' ended ended' (List.cons.inj behind).2
      exact ⟨rfl, rfl⟩

end Balanced

/-! ## Lists -/

/-- Parts with commas between them. -/
def listed : List (List TokenKind) → List TokenKind
  | [] => []
  | [e] => e
  | e :: f :: es => e ++ .symbol .comma :: listed (f :: es)

theorem listed_cons (e : List TokenKind) {es : List (List TokenKind)} (more : es ≠ []) :
    listed (e :: es) = e ++ .symbol .comma :: listed es := by
  cases es with
  | nil => exact absurd rfl more
  | cons => rfl

/-- Parts with a comma behind each. -/
def commaEnded (es : List (List TokenKind)) : List TokenKind := es.flatMap (· ++ [.symbol .comma])

theorem commaEnded_concat (es : List (List TokenKind)) (e : List TokenKind) :
    commaEnded (es ++ [e]) = commaEnded es ++ (e ++ [.symbol .comma]) := by
  rw [commaEnded, List.flatMap_append, List.flatMap_singleton]
  rfl

theorem listed_concat (es : List (List TokenKind)) (e : List TokenKind) : listed (es ++ [e]) = commaEnded es ++ e := by
  induction es with
  | nil => rfl
  | cons f es ih =>
    rw [List.cons_append, listed_cons f (List.concat_ne_nil e es), ih]
    simp [commaEnded]

section

variable {α : Type} {f : α → List TokenKind} {P : α → Prop} {Q : List TokenKind → Prop}

/-- What stands behind the first part of a list. -/
theorem exists_behind_first (f : α → List TokenKind) (x : α) (xs : List α) (r : List TokenKind) :
    ∃ behind, listed ((x :: xs).map f) ++ r = f x ++ behind ∧
      (xs = [] ∧ behind = r ∨ xs ≠ [] ∧ behind = .symbol .comma :: (listed (xs.map f) ++ r)) := by
  cases xs with
  | nil => exact ⟨r, rfl, .inl ⟨rfl, rfl⟩⟩
  | cons y ys => exact ⟨_, List.append_assoc .., .inr ⟨List.cons_ne_nil y ys, rfl⟩⟩

/-- A list is taken apart in one way only if each part of it ends at one place only. -/
theorem listed_unique
    (first : ∀ {x y r r'}, P x → P y → Q r → Q r' → f x ++ r = f y ++ r' → x = y ∧ r = r')
    (comma : ∀ r, Q (.symbol .comma :: r)) {xs ys : List α} (nonempty : xs ≠ []) (nonempty' : ys ≠ [])
    (parts : ∀ x ∈ xs, P x) (parts' : ∀ y ∈ ys, P y) (ends : Q r ∧ r.head? ≠ some (.symbol .comma))
    (ends' : Q r' ∧ r'.head? ≠ some (.symbol .comma)) (same : listed (xs.map f) ++ r = listed (ys.map f) ++ r') :
    xs = ys ∧ r = r' := by
  induction xs generalizing ys with
  | nil => exact absurd rfl nonempty
  | cons x xs ih =>
    obtain ⟨y, ys, rfl⟩ := List.exists_cons_of_ne_nil nonempty'
    obtain ⟨behind, split, here⟩ := exists_behind_first f x xs r
    obtain ⟨behind', split', here'⟩ := exists_behind_first f y ys r'
    have ended : Q behind := by
      rcases here with ⟨-, rfl⟩ | ⟨-, rfl⟩
      · exact ends.1
      · exact comma _
    have ended' : Q behind' := by
      rcases here' with ⟨-, rfl⟩ | ⟨-, rfl⟩
      · exact ends'.1
      · exact comma _
    rw [split, split'] at same
    obtain ⟨rfl, rfl⟩ := first (parts x List.mem_cons_self) (parts' y List.mem_cons_self) ended ended' same
    rcases here with ⟨rfl, rfl⟩ | ⟨more, rfl⟩
    · rcases here' with ⟨rfl, rfl⟩ | ⟨-, rfl⟩
      · exact ⟨rfl, rfl⟩
      · exact absurd rfl ends.2
    · rcases here' with ⟨-, rfl⟩ | ⟨more', rest⟩
      · exact absurd rfl ends'.2
      · obtain ⟨rfl, rfl⟩ := ih more more' (fun z member => parts z (List.mem_cons_of_mem x member))
          (fun z member => parts' z (List.mem_cons_of_mem x member)) (List.cons.inj rest).2
        exact ⟨rfl, rfl⟩

end

/-- The expressions of a row. -/
structure IsRow (row : List (List TokenKind)) : Prop where
  nonempty : row ≠ []
  balanced : ∀ e ∈ row, Balanced TokenKind.isComma e

/-- A row in parentheses. -/
def rowKinds (row : List (List TokenKind)) : List TokenKind := .symbol .leftParen :: (listed row ++ [.symbol .rightParen])

/-- A row is taken apart in one way only. -/
theorem IsRow.unique {row row' : List (List TokenKind)} (isRow : IsRow row) (isRow' : IsRow row')
    (same : rowKinds row ++ r = rowKinds row' ++ r') : row = row' ∧ r = r' := by
  have inside : listed (row.map id) ++ .symbol .rightParen :: r = listed (row'.map id) ++ .symbol .rightParen :: r' := by
    simpa [rowKinds] using same
  have closed {r : List TokenKind} : Ended TokenKind.isComma (.symbol .rightParen :: r) := ended_cons_of_endsEverything rfl
  obtain ⟨rfl, rest⟩ := listed_unique Balanced.unique (fun _ => ended_comma) isRow.nonempty isRow'.nonempty isRow.balanced
    isRow'.balanced ⟨closed, by simp⟩ ⟨closed, by simp⟩ inside
  exact ⟨rfl, (List.cons.inj rest).2⟩

/-- Tokens as rows with commas between them, and what stands behind the last row. -/
structure SplitsInto (ks : List TokenKind) (rows : List (List (List TokenKind))) (tail : List TokenKind) : Prop where
  split : ks = listed (rows.map rowKinds) ++ tail
  nonempty : rows ≠ []
  isRow : ∀ row ∈ rows, IsRow row
  ends : tail.head? ≠ some (.symbol .comma)

/-- Rows are taken apart in one way only. -/
theorem SplitsInto.unique {rows rows' : List (List (List TokenKind))} {tail tail' : List TokenKind}
    (splits : SplitsInto ks rows tail) (splits' : SplitsInto ks rows' tail') : rows = rows' ∧ tail = tail' :=
  listed_unique (Q := fun _ => True) (fun isRow isRow' _ _ => isRow.unique isRow') (fun _ => trivial) splits.nonempty
    splits'.nonempty splits.isRow splits'.isRow ⟨trivial, splits.ends⟩ ⟨trivial, splits'.ends⟩
    (splits.split.symm.trans splits'.split)

end SqlSharding.Sql
