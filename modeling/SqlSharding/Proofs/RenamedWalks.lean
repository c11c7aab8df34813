import SqlSharding.Proofs.Renaming

/-!
# Walks over renamed tables

The walk over the renamed text follows the walk over the text. Where it would not, the walk over the text has recorded what the
complete statement does not have, or has passed the name of a table without recording it, or is about to: it is lost then, because
it cannot end with that statement.
-/

namespace SqlSharding.Sql

/-- The word of a locking clause is told by the token behind it. -/
theorem Walk.atLock_eq_ok_iff {s t : WalkState} {r : Bool} : atLock s = .ok r t ↔ t = s ∧
    (s.cursor.kind.isWord "LOCK" = false ∧ r = false ∨
      s.cursor.kind.isWord "LOCK" = true ∧ ∃ k, s.cursor.peek = .ok k ∧ r = decide (k = .keyword .in)) := by
  rw [atLock, bind_eq_ok_iff]
  constructor
  · rintro ⟨k, _, ⟨⟩, run⟩
    cases isWord : s.cursor.kind.isWord "LOCK" with
    | false =>
      rw [isWord, if_neg Bool.false_ne_true] at run
      obtain ⟨rfl, rfl⟩ := pure_eq_ok_iff.mp run
      exact ⟨rfl, .inl ⟨rfl, rfl⟩⟩
    | true =>
      rw [isWord, if_pos rfl] at run
      obtain ⟨k, _, ahead, ending⟩ := bind_eq_ok_iff.mp run
      obtain ⟨found, rfl⟩ := peek_eq_ok_iff.mp ahead
      obtain ⟨rfl, rfl⟩ := pure_eq_ok_iff.mp ending
      exact ⟨rfl, .inr ⟨rfl, k, found, rfl⟩⟩
  · rintro ⟨rfl, ⟨isWord, rfl⟩ | ⟨isWord, k, ahead, rfl⟩⟩
    · refine ⟨_, t, rfl, ?_⟩
      rw [isWord]
      rfl
    · refine ⟨_, t, rfl, ?_⟩
      rw [isWord]
      exact bind_eq_ok_iff.mpr ⟨k, t, peek_eq_ok_iff.mpr ⟨ahead, rfl⟩, rfl⟩

theorem Walk.eat_other {s t : WalkState} {k : TokenKind} {r : Bool} (other : s.cursor.check k = false)
    (run : eat k s = .ok r t) : r = false ∧ t = s := by
  obtain ⟨_, _, ⟨⟩, run⟩ := bind_eq_ok_iff.mp run
  rw [other, if_neg Bool.false_ne_true] at run
  obtain ⟨rfl, rfl⟩ := pure_eq_ok_iff.mp run
  exact ⟨rfl, rfl⟩

/-- A name without a dot behind it has one part. -/
theorem Walk.nameParts_alone {s t : WalkState} {first : Identifier} {parts : List Identifier × Bool}
    (noDot : s.cursor.check (.symbol .dot) = false) (run : nameParts first s = .ok parts t) : parts = ([first], false) ∧ t = s := by
  refine repeatFrom_invariant (J := fun parts t => parts = ([first], false) ∧ t = s) ?_ run ⟨rfl, rfl⟩
  rintro _ _ r t ⟨rfl, rfl⟩ round
  obtain ⟨found, s₁, eats, ending⟩ := bind_eq_ok_iff.mp round
  obtain ⟨rfl, rfl⟩ := eat_other noDot eats
  obtain ⟨rfl, rfl⟩ := pure_eq_ok_iff.mp ending
  exact ⟨rfl, rfl⟩

/-- A keyword behind the current token is one of the tokens that are left. -/
theorem Standing.two_of_peek {d : Dialect} {p : Place} {ts rest : List Token} {s : WalkState} {w : Keyword} (proper : Proper ts)
    (standing : Standing d p ts rest s) (ahead : s.cursor.peek = .ok (.keyword w)) :
    ∃ x y later, rest = x :: y :: later ∧ y.kind = .keyword w := by
  obtain ⟨suffix, n, same⟩ := standing
  have properRest : Proper rest := fun t member => proper t (suffix.subset member)
  rw [same] at ahead
  match rest with
  | [] => cases ahead
  | [x] =>
    rw [Cursor.along_peek_last properRest] at ahead
    cases ahead
  | x :: y :: later =>
    rw [Cursor.along_peek properRest] at ahead
    exact ⟨x, y, later, rfl, Except.ok.inj ahead⟩

/-! ## Lost walks -/

namespace Renaming

/-- The name of a table was passed among the given tokens, and it is not recorded. -/
def Missed (R : Renaming) (d : Dialect) (p : Place) (ts bound : List Token) (s : WalkState) : Prop :=
  ∃ t ∈ bound, R.Marks t ∧ Tracked d p ts (PassedOver ts t) bound s

/-- The name of a table is about to be passed as the word of a locking clause. -/
structure AtLock (R : Renaming) (d : Dialect) (p : Place) (ts bound : List Token) (t u : Token) (later : List Token)
    (s : WalkState) : Prop where
  within : t :: u :: later <:+ bound
  standing : Standing d p ts (t :: u :: later) s
  marked : R.Marks t
  ahead : u.kind = .keyword .in
  unrecorded : Unrecorded t.span.start s.statement

/-- The company of the walk over the renamed text. In the first walk, the names that are recorded are those of tokens behind. The
names that it was to record but has not are looked for among the given tokens only. -/
def company (R : Renaming) (d : Dialect) (p p' : Place) (ts bound : List Token) : Company where
  Beside s s' := (R.core d p p' ts).Beside s s' ∧ Tracked d p ts (NamesBehind ts) bound s
  Lost b s := R.Strayed s.statement ∨ R.Missed d p ts bound s ∨ b = false ∧ ∃ t u later, R.AtLock d p ts bound t u later s
  Columns _ _ := True
  Operands _ _ := True
  Conditions _ _ := True
  loosen lost := lost.imp_right fun missed => missed.imp_right fun atLock => nomatch atLock.1

variable {R : Renaming} {d : Dialect} {p p' : Place} {ts bound : List Token} {s u : WalkState} {α : Type} {b : Bool}
  (sound : R.Sound) (proper : Proper ts) (spaced : Spaced ts)

/-- Recording a name that stands before the given tokens leaves a walk lost. -/
theorem lost_addTable {x : Identifier} (spaced : Spaced ts) (named : NameBehind ts bound x) (aliasName : Option String)
    (lost : (R.company d p p' ts bound).Lost b s) :
    (R.company d p p' ts bound).Lost b { s with statement := s.statement.addTable x aliasName } := by
  rcases lost with strayed | ⟨t, member, marked, rest, within, standing, skipped⟩ | ⟨flag, t, u, later, atLock⟩
  · exact .inl (strayed.addTable x aliasName)
  · exact .inr (.inl ⟨t, member, marked, rest, within, ⟨standing.suffix, standing.cursor⟩, skipped.behind,
      skipped.unrecorded.addTable (named.start_ne spaced member) aliasName⟩)
  · have apart := named.start_ne spaced (atLock.within.subset List.mem_cons_self)
    exact .inr (.inr ⟨flag, t, u, later, atLock.within, ⟨atLock.standing.suffix, atLock.standing.cursor⟩, atLock.marked,
      atLock.ahead, atLock.unrecorded.addTable apart aliasName⟩)

theorem lost_addTargets {targets : List Identifier} (spaced : Spaced ts) (named : ∀ x ∈ targets, NameBehind ts bound x)
    (lost : (R.company d p p' ts bound).Lost b s) :
    (R.company d p p' ts bound).Lost b { s with statement := targets.foldl Walk.addTarget s.statement } := by
  induction targets generalizing s with
  | nil => exact lost
  | cons x targets ih =>
    refine ih (s := { s with statement := Walk.addTarget s.statement x }) (fun y member => named y (List.mem_cons_of_mem x member)) ?_
    rw [Walk.addTarget]
    split
    · exact lost_addTable spaced (named x List.mem_cons_self) none lost
    · exact lost

/-- A walk that is lost among some tokens is lost among more of them. -/
theorem lost_widen {later : List Token} (suffix : later <:+ bound) (lost : (R.company d p p' ts later).Lost b s) :
    (R.company d p p' ts bound).Lost b s := by
  rcases lost with strayed | ⟨t, member, marked, rest, within, tracked⟩ | ⟨flag, t, u, after, atLock⟩
  · exact .inl strayed
  · exact .inr (.inl ⟨t, suffix.subset member, marked, rest, within.trans suffix, tracked⟩)
  · exact .inr (.inr ⟨flag, t, u, after, atLock.within.trans suffix, atLock.standing, atLock.marked, atLock.ahead,
      atLock.unrecorded⟩)

theorem AtLock.isIdentifier {x y : Token} {later : List Token} (lock : R.AtLock d p ts bound x y later s) :
    s.cursor.kind.isIdentifier = true := by
  obtain ⟨n, same⟩ := lock.standing.cursor
  rw [same]
  exact lock.marked.1

section Silent

variable {f f' : Statement → Statement} (names : ∀ st, SameNames st (f st)) (names' : ∀ st, SameNames st (f' st))

include names

/-- Recording what are no names leaves a walk lost. -/
theorem lost_of_names (lost : (R.company d p p' ts bound).Lost b s) :
    (R.company d p p' ts bound).Lost b { s with statement := f s.statement } := by
  rcases lost with strayed | ⟨t, member, marked, rest, within, standing, skipped⟩ | ⟨flag, t, u, later, atLock⟩
  · exact .inl (strayed.of_names (names _))
  · exact .inr (.inl ⟨t, member, marked, rest, within, ⟨standing.suffix, standing.cursor⟩, skipped.behind,
      skipped.unrecorded.of_names (names _)⟩)
  · exact .inr (.inr ⟨flag, t, u, later, atLock.within, ⟨atLock.standing.suffix, atLock.standing.cursor⟩, atLock.marked,
      atLock.ahead, atLock.unrecorded.of_names (names _)⟩)

variable (rows : ∀ st st', st'.insertRows = st.insertRows → (f' st').insertRows = (f st).insertRows)

include names' rows

theorem beside_of_names {s' : WalkState} (pair : (R.company d p p' ts bound).Beside s s') :
    (R.company d p p' ts bound).Beside { s with statement := f s.statement } { s' with statement := f' s'.statement } := by
  obtain ⟨⟨parallel, agree⟩, rest, within, standing, behind⟩ := pair
  have agree' : R.Agree (f s.statement) (f' s'.statement) :=
    agree.of_tables (names _).kind (names' _).kind (names _).tables (names' _).tables (rows _ _ agree.rows)
  exact ⟨⟨parallel, agree'⟩, rest, within, ⟨standing.suffix, standing.cursor⟩, behind.of_names (names _)⟩

theorem silent : (R.company d p p' ts bound).Follows b (Walk.record f) (Walk.record f') (fun _ => b) Eq := by
  intro s _ u run
  cases run
  exact ⟨lost_of_names names, fun s' pair => .inr ⟨(), _, rfl, rfl, beside_of_names names names' rows pair⟩⟩

end Silent

/-- A walk that is lost for good is lost in any way. -/
theorem loosened (lost : (R.company d p p' ts bound).Lost true s) : (R.company d p p' ts bound).Lost b s :=
  (R.company d p p' ts bound).lost_mono (fun _ => rfl) lost

section Walks

include proper spaced

/-- What every walk over a statement keeps is kept by a walk. -/
theorem lost_kept {m : Walk α} (kept : ∀ {I : WalkState → Prop}, Walk.KeptByStatements I (fun _ => True) → Walk.Keeps I m)
    {a : α} (run : m s = .ok a u) (lost : (R.company d p p' ts bound).Lost true s) :
    (R.company d p p' ts bound).Lost true u := by
  rcases lost with strayed | ⟨t, member, marked, tracked⟩ | atLock
  · exact .inl (kept (strayed_kept.statements) s a u run strayed)
  · have trackable := trackable_passedOver spaced t
    exact .inr (.inl ⟨t, member, marked, kept (tracked_keptByStatements proper spaced trackable bound) s a u run tracked⟩)
  · exact nomatch atLock.1

/-- A walk that follows its companion as long as names make no difference does so if it keeps what is recorded and does not begin
at the word of a locking clause that is the name of a table. -/
theorem follows {m m' : Walk α} {before before' : Bool} {after after' : α → Bool} {Same : α → α → Prop}
    (kept : ∀ {I : WalkState → Prop}, Walk.KeptByStatements I (fun _ => True) → Walk.Keeps I m)
    (follows : (R.core d p p' ts).Follows before' m m' after' Same)
    (atLock : before = false → ∀ {s a u x y later}, R.AtLock d p ts bound x y later s → m s = .ok a u →
      (R.company d p p' ts bound).Lost (after a) u) :
    (R.company d p p' ts bound).Follows before m m' after Same := by
  intro s a u run
  refine ⟨fun lost => ?_, fun s' ⟨pair, tracked⟩ => .inr ?_⟩
  · rcases lost with strayed | missed | ⟨flag, x, y, later, lock⟩
    · exact loosened (lost_kept proper spaced kept run (.inl strayed))
    · exact loosened (lost_kept proper spaced kept run (.inr (.inl missed)))
    · exact atLock flag lock run
  · obtain lost | ⟨a', u', run', same, pair'⟩ := (follows s a u run).2 s' pair
    · exact lost.elim
    · exact ⟨a', u', run', same, pair', kept (tracked_keptByStatements proper spaced trackable_namesBehind bound) s a u run
        tracked⟩

/-- The word of a locking clause that is passed is missed if it is the name of a table. -/
theorem AtLock.passed {x y t : Token} {later : List Token} (lock : R.AtLock d p ts bound x y later s)
    (run : Walk.advance s = .ok t u) : R.Missed d p ts bound u ∧ Standing d p ts (y :: later) u := by
  obtain ⟨rest, moved, none | split⟩ := lock.standing.advance proper run
  · cases none
  injection split with _ same
  subst same
  refine ⟨⟨x, lock.within.subset List.mem_cons_self, lock.marked, y :: later, ?_, moved.standing, ?_, ?_⟩, moved.standing⟩
  · exact moved.suffix.trans lock.within
  · exact spaced.behind_head lock.standing.suffix
  · rw [moved.unchanged]
    exact lock.unrecorded

theorem abreast : (R.company d p p' ts bound).Abreast where
  tighten lost noName := by
    rcases lost with strayed | missed | ⟨-, x, y, later, lock⟩
    · exact .inl strayed
    · exact .inr (.inl missed)
    · rw [lock.isIdentifier] at noName
      cases noName
  alike pair := pair.1.1.alike proper
  looksAhead pair := (core_abreast proper).looksAhead pair.1
  advances := follows proper spaced (fun kept => kept.advance) (core_abreast (R := R) proper).advances
    fun _ _ _ _ _ _ _ lock run => .inr (.inl (lock.passed proper spaced run).1)

/-- A token that the first walk passes without recording it is missed if it is the name of a table. -/
theorem missed_of_passed {t : Token} (tracked : Tracked d p ts (NamesBehind ts) bound s) (marked : R.Marks t)
    (run : Walk.advance s = .ok t u) : R.Missed d p ts bound u := by
  obtain ⟨rest, within, standing, names⟩ := tracked
  obtain ⟨later, moved, rfl | rfl⟩ := standing.advance proper run
  · obtain ⟨n, same⟩ := standing.cursor
    obtain ⟨next, -, rfl, -⟩ := Walk.advance_eq_ok_iff.mp run
    rw [same] at marked
    cases marked.1
  · refine ⟨t, within.subset List.mem_cons_self, marked, later, moved.suffix.trans within, moved.standing,
      spaced.behind_head standing.suffix, ?_⟩
    rw [moved.unchanged]
    exact unrecorded_ahead spaced names List.mem_cons_self

include sound in
theorem seesLock : (R.company d p p' ts bound).Follows false Walk.atLock Walk.atLock (fun _ => false) Eq := by
  intro s r t run
  obtain ⟨rfl, -⟩ := Walk.atLock_stays run
  refine ⟨id, fun s' pair => ?_⟩
  obtain ⟨⟨parallel, agree⟩, rest, within, standing, names⟩ := pair
  have word : s'.cursor.kind.isWord "LOCK" = true ↔ t.cursor.kind.isWord "LOCK" = true ∧ ¬ R.Marks t.cursor.current :=
    parallel.twin.isWord_iff sound List.mem_cons_self
  have stays {r' : Bool} (run' : Walk.atLock s' = .ok r' s') : ∃ r'' t', Walk.atLock s' = .ok r'' t' ∧ r' = r'' ∧
      (R.company d p p' ts bound).Beside t t' := ⟨r', s', run', rfl, ⟨parallel, agree⟩, rest, within, standing, names⟩
  have noLock (noWord : s'.cursor.kind.isWord "LOCK" ≠ true) : Walk.atLock s' = .ok false s' :=
    Walk.atLock_eq_ok_iff.mpr ⟨rfl, .inl ⟨Bool.eq_false_iff.mpr noWord, rfl⟩⟩
  rw [Walk.atLock_eq_ok_iff] at run
  obtain ⟨-, ⟨noWord, rfl⟩ | ⟨isWord, k, ahead, rfl⟩⟩ := run
  · refine .inr (stays (noLock fun isWord' => ?_))
    rw [(word.mp isWord').1] at noWord
    cases noWord
  by_cases marked : R.Marks t.cursor.current
  · by_cases isIn : k = .keyword .in
    · obtain ⟨x, y, later, rfl, isY⟩ := standing.two_of_peek proper (isIn ▸ ahead)
      obtain ⟨n, same⟩ := standing.cursor
      have current : t.cursor.current = x := congrArg Cursor.current same
      exact .inl (.inr (.inr ⟨rfl, x, y, later, within, standing, current ▸ marked, isY,
        unrecorded_ahead spaced names List.mem_cons_self⟩))
    · rw [decide_eq_false isIn]
      exact .inr (stays (noLock fun isWord' => (word.mp isWord').2 marked))
  · obtain ⟨x, x', ahead', rfl, twin⟩ := parallel.peek proper ahead
    refine .inr (stays (Walk.atLock_eq_ok_iff.mpr ⟨rfl, .inr ⟨word.mpr ⟨isWord, marked⟩, _, ahead', ?_⟩⟩))
    exact decide_eq_decide.mpr (twin.alike.keyword_iff _)

include sound in
theorem inStep : (R.company d p p' ts bound).InStep where
  toAbreast := abreast proper spaced
  seesLock := seesLock sound proper spaced

/-! ### Aliases -/

/-- A name that is not recorded is the same in both texts. -/
theorem plainName : (R.company d p p' ts bound).Follows b Walk.identifier Walk.identifier (fun _ => true)
    fun x x' => x'.name = x.name := by
  intro s x u run
  have keeps {I : WalkState → Prop} (kept : Walk.KeptByStatements I fun _ => True) : Walk.Keeps I Walk.identifier :=
    ((Company.keeping_inStep kept.advance).identifier (b := false)).keeps
  have passes {x y : Token} {later : List Token} {s : WalkState} (lock : R.AtLock d p ts bound x y later s) {z : Identifier}
      {u : WalkState} (run : Walk.identifier s = .ok z u) : R.Missed d p ts bound u := by
    obtain ⟨_, _, ⟨⟩, run⟩ := Walk.bind_eq_ok_iff.mp run
    rw [if_pos lock.isIdentifier] at run
    obtain ⟨t, advances, -⟩ := Walk.map_eq_ok_iff.mp run
    exact (lock.passed proper spaced advances).1
  have both : (R.company d p p' ts bound).Follows b Walk.identifier Walk.identifier (fun _ => true) R.SameName :=
    follows proper spaced keeps (core_identifier (b := b) proper) fun _ _ _ _ _ _ _ lock run => .inr (.inl (passes lock run))
  refine ⟨(both s x u run).1, fun s' pair => ?_⟩
  by_cases marked : .ofTable x ∈ R.points
  · obtain ⟨_, _, ⟨⟩, run⟩ := Walk.bind_eq_ok_iff.mp run
    split at run
    · next names =>
      obtain ⟨t, advances, rfl⟩ := Walk.map_eq_ok_iff.mp run
      obtain ⟨next, -, rfl, -⟩ := Walk.advance_eq_ok_iff.mp advances
      exact .inl (.inr (.inl (missed_of_passed proper spaced pair.2 ⟨names, marked⟩ advances)))
    · cases run
  · refine ((both s x u run).2 s' pair).imp_right fun ⟨x', u', run', same, pair'⟩ => ⟨x', u', run', ?_, pair'⟩
    rwa [SameName, nameOf, if_neg marked] at same

include sound in
/-- An alias is the same in both texts. -/
theorem alias? : (R.company d p p' ts bound).Follows b Walk.alias? Walk.alias? (fun _ => false) Eq := by
  have walks : (R.company d p p' ts bound).InStep := inStep sound proper spaced
  exact walks.alias? (plainName proper spaced)

/-! ### Columns -/

theorem column : (R.company d p p' ts bound).Follows false Walk.column Walk.column (fun _ => true)
    (Option.Rel fun _ _ => True) := by
  refine follows proper spaced (fun kept => kept.column) (core_column (b := false) proper) ?_
  intro _ s x u t next later lock run
  obtain ⟨first, s₁, identifies, run⟩ := Walk.bind_eq_ok_iff.mp run
  obtain ⟨_, _, ⟨⟩, identifies⟩ := Walk.bind_eq_ok_iff.mp identifies
  rw [if_pos lock.isIdentifier] at identifies
  obtain ⟨t, advances, rfl⟩ := Walk.map_eq_ok_iff.mp identifies
  obtain ⟨missed, standing⟩ := lock.passed proper spaced advances
  obtain ⟨n, same⟩ := standing.cursor
  have noDot : s₁.cursor.check (.symbol .dot) = false := by
    rw [same, Cursor.check, Cursor.along_cons_kind, lock.ahead]
    rfl
  obtain ⟨⟨parts, star⟩, s₂, names, run⟩ := Walk.bind_eq_ok_iff.mp run
  obtain ⟨alone, rfl⟩ := Walk.nameParts_alone noDot names
  cases alone
  obtain ⟨-, rfl⟩ := Walk.pure_eq_ok_iff.mp run
  exact .inr (.inl missed)

/-! ### Bounds -/

section Words

include sound

/-- A word behind the bound of a `TOP` clause is passed in both texts, or it is the name of a table that was missed. -/
theorem passWord {word : String} (telling : word ∈ tellingWords) :
    (R.company d p p' ts bound).Follows b (Walk.passWord word) (Walk.passWord word) (fun _ => b) Eq := by
  intro s r u run
  have walks : (R.company d p p' ts bound).Abreast := abreast proper spaced
  rcases Walk.passWord_eq_ok_iff.mp run with ⟨noWord, rfl, rfl⟩ | ⟨isWord, rfl, t, advances⟩
  · refine ⟨id, fun s' pair => .inr ⟨false, s', Walk.passWord_eq_ok_iff.mpr (.inl ⟨?_, rfl, rfl⟩), rfl, pair⟩⟩
    rw [Bool.eq_false_iff, ne_eq, Cursor.kind, pair.1.1.twin.isWord_iff sound telling]
    exact fun both => Bool.eq_false_iff.mp noWord both.1
  · obtain ⟨lost, beside⟩ := walks.advance (b := b) s t u advances
    refine ⟨fun was => loosened (lost was), fun s' pair => ?_⟩
    obtain ⟨next, -, current, -⟩ := Walk.advance_eq_ok_iff.mp advances
    by_cases marked : R.Marks t
    · exact .inl (.inr (.inl (missed_of_passed proper spaced pair.2 marked advances)))
    · rcases beside s' pair with now | ⟨t', u', advances', -, pair'⟩
      · exact .inl (loosened now)
      · refine .inr ⟨true, u', Walk.passWord_eq_ok_iff.mpr (.inr ⟨?_, rfl, t', advances'⟩), rfl, pair'⟩
        exact (pair.1.1.twin.isWord_iff sound telling).mpr ⟨isWord, current ▸ marked⟩

/-- `WITH TIES` is passed in both texts, or its second word is the name of a table that was missed. -/
theorem passTies : (R.company d p p' ts bound).Follows b Walk.passTies Walk.passTies (fun _ => b) Eq := by
  intro s r u run
  have walks : (R.company d p p' ts bound).Abreast := abreast proper spaced
  rcases Walk.passTies_eq_ok_iff.mp run with ⟨noTies, rfl⟩ | ⟨isWith, k, ahead, isTies, x, s₁, y, first, second⟩
  · refine ⟨id, fun s' pair => .inr ⟨(), s', Walk.passTies_eq_ok_iff.mpr (.inl ⟨?_, rfl⟩), rfl, pair⟩⟩
    have same := (pair.1.1.alike proper).check_eq (.keyword .with)
    rcases noTies with noWith | ⟨isWith, k, ahead, noWord⟩
    · exact .inl (same ▸ noWith)
    · obtain ⟨z, z', ahead', rfl, twin⟩ := pair.1.1.peek proper ahead
      refine .inr ⟨same ▸ isWith, _, ahead', ?_⟩
      rw [Bool.eq_false_iff, ne_eq, twin.isWord_iff sound (by decide)]
      exact fun both => Bool.eq_false_iff.mp noWord both.1
  · obtain ⟨lost₁, beside₁⟩ := walks.advance (b := b) s x s₁ first
    obtain ⟨lost₂, beside₂⟩ := walks.advance (b := true) s₁ y u second
    refine ⟨fun was => loosened (lost₂ (lost₁ was)), fun s' pair => ?_⟩
    rcases beside₁ s' pair with now | ⟨x', s₁', first', -, pair₁⟩
    · exact .inl (loosened (lost₂ now))
    by_cases marked : R.Marks y
    · exact .inl (loosened (.inr (.inl (missed_of_passed proper spaced pair₁.2 marked second))))
    rcases beside₂ s₁' pair₁ with now | ⟨y', u', second', -, pair'⟩
    · exact .inl (loosened now)
    refine .inr ⟨(), u', Walk.passTies_eq_ok_iff.mpr (.inr ?_), rfl, pair'⟩
    have same := (pair.1.1.alike proper).check_eq (.keyword .with)
    have isTies' : s₁'.cursor.kind.isWord "TIES" = true := by
      obtain ⟨next, -, current, -⟩ := Walk.advance_eq_ok_iff.mp second
      rw [Walk.peek_of_advance first] at ahead
      cases ahead
      exact (pair₁.1.1.twin.isWord_iff sound (by decide)).mpr ⟨isTies, current ▸ marked⟩
    exact ⟨same ▸ isWith, _, Walk.peek_of_advance first', isTies', x', s₁', y', first', second'⟩

theorem paging : (R.company d p p' ts bound).WordPaging (fun _ => True) fun _ _ => True where
  toAbreast := abreast proper spaced
  bounds_total x := ⟨x, trivial⟩
  bound := (abreast proper spaced).bound
  paginates _ _ _ := silent (SameNames.paginate _ _ _) (SameNames.paginate _ _ _) fun st st' same => by
    rw [Statement.paginate_eq, Statement.paginate_eq]
    exact same
  passesPercent := passWord sound proper spaced (by decide)
  passesTies := passTies sound proper spaced

end Words

/-! ### Tables -/

include sound

/-- The table is recorded in both walks unless the complete statement does not have it. -/
theorem tableThen {m : Walk (Option String)}
    (kept : ∀ {I : WalkState → Prop}, Walk.KeptByStatements I (fun _ => True) → Walk.Keeps I (Walk.tableThen m))
    (aliases : ∀ bound, (R.company d p p' ts bound).Follows false m m (fun _ => false) Eq) :
    (R.company d p p' ts bound).Follows true (Walk.tableThen m) (Walk.tableThen m) (fun _ => false) Eq := by
  intro s _ u run
  refine ⟨fun lost => (R.company d p p' ts bound).loosen (lost_kept proper spaced kept run lost), ?_⟩
  rintro s' ⟨pair, rest, within, standing, names⟩
  obtain ⟨x, s₁, reads, ending⟩ := Walk.bind_eq_ok_iff.mp run
  obtain ⟨aliasName, s₂, ends, ⟨⟩⟩ := Walk.bind_eq_ok_iff.mp ending
  obtain ⟨later, moved, named⟩ := standing.qualifiedName proper spaced reads
  obtain lost | ⟨x', s₁', reads', same, pair₁⟩ := (core_qualifiedName (b := true) proper s x s₁ reads).2 s' pair
  · exact lost.elim
  by_cases inPoints : .ofTable x ∈ R.points
  · have suffix : later <:+ bound := moved.suffix.trans within
    have names₁ : NamesBehind ts later s₁.statement := trackable_namesBehind.moved names moved
    have beside : (R.company d p p' ts later).Beside s₁ s₁' := ⟨pair₁, later, List.suffix_refl later, moved.standing, names₁⟩
    rcases (aliases later s₁ aliasName s₂ ends).2 s₁' beside with lost | ⟨_, s₂', ends', rfl, pair₂, tracked⟩
    · exact .inl (lost_widen suffix (lost_addTable spaced named.behind aliasName lost))
    · obtain ⟨rest₂, within₂, standing₂, names₂⟩ := tracked
      have run' : Walk.tableThen m s' = .ok () { s₂' with statement := s₂'.statement.addTable x' aliasName } :=
        Walk.bind_eq_ok_iff.mpr ⟨x', s₁', reads', Walk.bind_eq_ok_iff.mpr ⟨aliasName, s₂', ends', rfl⟩⟩
      exact .inr ⟨(), _, run', rfl, ⟨pair₂.1, pair₂.2.addTable sound same inPoints aliasName⟩, rest₂, within₂.trans suffix,
        ⟨standing₂.suffix, standing₂.cursor⟩, names₂.addTable (named.behind.mono within₂) aliasName⟩
  · exact .inl (.inl (.inl ⟨x, Statement.mem_addTable.mpr (.inr rfl), inPoints⟩))

theorem steady : (R.company d p p' ts bound).Steady fun _ => True where
  toInStep := inStep sound proper spaced
  columns_total x := ⟨x, trivial⟩
  operands_total x := ⟨x, trivial⟩
  conditions_total x := ⟨x, trivial⟩
  lost_conditions cs lost := lost_of_names (SameNames.conditions cs) lost
  conditions _ := trivial
  setConditions pair _ := beside_of_names (SameNames.conditions _) (SameNames.conditions _) (fun _ _ => id) pair
  addCondition _ _ := trivial
  markUnusable _ := trivial
  readsColumn := column proper spaced
  readsValue := (abreast proper spaced).value?
  readsTable := tableThen sound proper spaced (m := Walk.alias?) (fun kept => kept.table) fun _ => alias? sound proper spaced
  records_false := trivial
  readsLimit _ _ := (paging sound proper spaced).limitClause trivial
  readsOffsetFetch _ _ := (paging sound proper spaced).offsetFetchClause trivial
  readsTop r := (paging sound proper spaced).topClause r

/-! ### Targets of a DELETE -/

theorem targetsEnd : (R.company d p p' ts bound).Follows true Walk.targetsEnd Walk.targetsEnd (fun _ => false) Eq := by
  intro s _ u run
  refine ⟨fun lost => loosened (lost_kept proper spaced (fun kept => kept.targets) run lost), ?_⟩
  rintro s' ⟨pair, rest, within, standing, names⟩
  rw [Walk.targetsEnd_eq] at run ⊢
  obtain ⟨targets, s₁, reads, ending⟩ := Walk.bind_eq_ok_iff.mp run
  obtain ⟨_, s₂, tables, ⟨⟩⟩ := Walk.bind_eq_ok_iff.mp ending
  obtain ⟨later, moved, named, apart⟩ := standing.deleteTargets proper spaced reads
  obtain lost | ⟨targets', s₁', reads', same, pair₁⟩ := (core_deleteTargets (b := true) proper s targets s₁ reads).2 s' pair
  · exact lost.elim
  have suffix : later <:+ bound := moved.suffix.trans within
  have names₁ : NamesBehind ts later s₁.statement := trackable_namesBehind.moved names moved
  have beside : (R.company d p p' ts later).Beside s₁ s₁' := ⟨pair₁, later, List.suffix_refl later, moved.standing, names₁⟩
  -- the tables after the targets leave the targets unrecorded
  have new (x) (member : x ∈ targets) : Unrecorded x.span.start s₂.statement := by
    obtain ⟨t, ahead, behind, -, rfl⟩ := named x member
    have skipped : Tracked d p ts (PassedOver ts t) later s₁ := by
      refine ⟨later, List.suffix_refl later, moved.standing, behind, ?_⟩
      rw [moved.unchanged]
      exact unrecorded_ahead spaced names ahead
    have kept := tracked_keptByParts (d := d) (p := p) proper spaced (trackable_passedOver spaced t) later
    obtain ⟨_, -, -, skipped⟩ := (Company.keeping_steady kept).tablesAfter.keeps s₁ _ s₂ tables skipped
    rw [Identifier.span_ofToken]
    exact skipped.unrecorded
  have walks : (R.company d p p' ts later).Steady fun _ => True := steady sound proper spaced
  rcases (walks.tablesAfter s₁ _ s₂ tables).2 s₁' beside with lost | ⟨_, s₂', tables', -, pair₂, rest₂, within₂, standing₂, names₂⟩
  · exact .inl (lost_widen suffix (lost_addTargets spaced (fun x member => (named x member).behind) lost))
  rcases pair₂.2.addTargets sound same new apart with strayed | ⟨x, member, inPoints, unrecorded⟩ | agree
  · exact .inl (.inl strayed)
  · obtain ⟨t, ahead, behind, isName, rfl⟩ := named x member
    rw [Identifier.span_ofToken] at unrecorded
    exact .inl (.inr (.inl ⟨t, within.subset ahead, ⟨isName, inPoints⟩, rest₂, within₂.trans suffix,
      ⟨standing₂.suffix, standing₂.cursor⟩, behind.mono within₂, unrecorded⟩))
  · refine .inr ⟨(), _, Walk.bind_eq_ok_iff.mpr ⟨targets', s₁', reads', Walk.bind_eq_ok_iff.mpr ⟨(), s₂', tables', rfl⟩⟩, rfl,
      ⟨pair₂.1, agree⟩, rest₂, within₂.trans suffix, ⟨standing₂.suffix, standing₂.cursor⟩, ?_⟩
    exact names₂.addTargets fun x member => (named x member).behind.mono within₂

theorem settled : (R.company d p p' ts bound).Settled fun _ => True where
  toSteady := steady sound proper spaced
  readsName := by
    have noAlias (bound : List Token) : (R.company d p p' ts bound).Follows false (pure none : Walk (Option String)) (pure none)
        (fun _ => false) Eq := .pure rfl
    have keeps {I : WalkState → Prop} (kept : Walk.KeptByStatements I fun _ => True) :
        Walk.Keeps I (Walk.tableThen (pure none)) := Walk.discard_tableName ▸ kept.name.discards
    rw [Walk.discard_tableName]
    exact tableThen sound proper spaced keeps noAlias
  recordColumn _ := silent (fun _ => .rows _ _ _) (fun _ => .rows _ _ _) fun _ _ => id
  countRow := silent (fun _ => .rows _ _ _) (fun _ => .rows _ _ _) fun _ _ same => congrArg (· + 1) same
  singleRow := silent (fun _ => .rows _ _ _) (fun _ => .rows _ _ _) fun _ _ _ => rfl
  insertRows pair := pair.1.2.rows.symm
  recordRow _ := by
    have names (values : List (Option Operand)) (st : Statement) :
        SameNames st ((Walk.rowConditions st.insertColumns values).foldl Statement.addCondition st) := by
      rw [Statement.foldl_addCondition]
      exact .conditions _ _
    refine silent (names _) (names _) fun st st' same => ?_
    rw [Statement.foldl_addCondition, Statement.foldl_addCondition]
    exact same
  readsTargets := targetsEnd sound proper spaced

omit sound proper spaced in
theorem keyPoints : (R.company d p p' ts bound).KeyPoints fun _ _ => True where
  toPlaces := .any _
  records n _ _ := silent (SameNames.key _ _ n) (SameNames.key _ _ n) fun _ _ => id

/-- The walk over the renamed text ends like the walk over the text, if that ends with the complete statement. -/
theorem walk_of_twins {ts' : List Token} (twins : List.Forall₂ R.Twin ts ts') {kind : StatementKind} {n : Nat} {st : Statement}
    (run : Walk.wholeStatement kind ⟨.along d p 0 ts, .ofKind kind⟩ = .ok () ⟨.along d p n [], st⟩)
    (points : ∀ x, .ofTable x ∈ R.points → .ofTable x ∈ st.points ∨ x ∈ st.qualifiers)
    (recorded : ∀ x, .ofTable x ∈ st.points → .ofTable x ∈ R.points) (tables : R.tables = st.tables) :
    ∃ st', Walk.wholeStatement kind ⟨.along d p' 0 ts', .ofKind kind⟩ = .ok () ⟨.along d p' n [], st'⟩ ∧ R.Agree st st' := by
  have walks : (R.company d p p' ts ts).Settled fun _ => True := settled sound proper spaced
  have start : (R.company d p p' ts ts).Beside ⟨.along d p 0 ts, .ofKind kind⟩ ⟨.along d p' 0 ts', .ofKind kind⟩ :=
    ⟨⟨⟨0, ts, ts', List.suffix_refl ts, rfl, rfl, twins⟩, rfl, rfl, rfl, nofun⟩,
      ts, List.suffix_refl ts, ⟨List.suffix_refl ts, 0, rfl⟩, nofun, nofun⟩
  have ended : Proper [] := fun t member => nomatch member
  rcases (walks.wholeStatement (b := true) keyPoints trivial kind _ _ _ run).2 _ start with lost | ⟨_, s', run', -, pair⟩
  · rcases lost with (⟨x, member, noPoint⟩ | ⟨e, member, a, has, noAlias⟩) | ⟨t, -, marked, _, -, -, skipped⟩ | ⟨-, t, u, later, lock⟩
    · exact absurd (recorded x member) noPoint
    · exact absurd has (noAlias e (tables ▸ member))
    · rcases points _ marked.2 with member | member
      · exact absurd (congrArg Span.start (Identifier.span_ofToken t)) (skipped.unrecorded.points _ member)
      · exact absurd (congrArg Span.start (Identifier.span_ofToken t)) (skipped.unrecorded.qualifiers _ member)
    · obtain ⟨m, same⟩ := lock.standing.cursor
      have same : Cursor.along d p n [] = .along d p m (t :: u :: later) := same
      cases Cursor.along_injective ended (lock.standing.proper_rest proper) same
  · obtain ⟨⟨⟨m, rest, rest', suffix, same, same', twins⟩, agree⟩, -⟩ := pair
    have properRest : Proper rest := fun t member => proper t (suffix.subset member)
    have same : Cursor.along d p n [] = .along d p m rest := same
    obtain rfl := Cursor.along_injective ended properRest same
    cases twins
    have counted : n = m := by simpa using congrArg Cursor.parameterIndex same
    obtain ⟨cursor', st'⟩ := s'
    obtain rfl : cursor' = .along d p' n [] := counted ▸ same'
    exact ⟨st', run', agree⟩

end Walks

end Renaming

end SqlSharding.Sql
