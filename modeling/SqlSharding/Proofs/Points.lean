import SqlSharding.Proofs.Runs

/-!
# Points and their tokens

The places that a walk records are places of tokens that it has passed: a table's name or a qualifier is an identifier, a
bound is an integer. No two bounds are recorded at one token, so the points at one place are one point.
-/

namespace SqlSharding.Sql

/-! ## Tokens behind a cursor -/

/-- Tokens of which none is empty and each ends before the next one begins. -/
structure Spaced (ts : List Token) : Prop where
  nonempty : ∀ t ∈ ts, t.span.start < t.span.finish
  apart : ts.Pairwise fun t u => t.span.finish ≤ u.span.start

theorem Laid.spaced {start : Nat} {cs : List Char} {ts : List Token} (laid : Laid start cs ts) : Spaced ts :=
  ⟨fun t member => (laid.cuts t member).2.2, laid.pairwise⟩

/-- Tokens of a text that begin at the same place are the same. -/
theorem Spaced.eq_of_start {ts : List Token} (spaced : Spaced ts) {t u : Token} (first : t ∈ ts) (second : u ∈ ts)
    (same : t.span.start = u.span.start) : t = u := by
  obtain ⟨nonempty, apart⟩ := spaced
  induction apart with
  | nil => cases first
  | @cons v ts before apart ih =>
    have := nonempty v List.mem_cons_self
    rcases List.mem_cons.mp first with rfl | later <;> rcases List.mem_cons.mp second with rfl | later'
    · rfl
    · have := before u later'
      omega
    · have := before t later
      omega
    · exact ih later later' fun t member => nonempty t (List.mem_cons_of_mem v member)

/-- Of two tokens of a text, the one that begins first ends before the other one begins. -/
theorem Spaced.finish_le {ts : List Token} (spaced : Spaced ts) {t u : Token} (first : t ∈ ts) (second : u ∈ ts)
    (before : t.span.start < u.span.start) : t.span.finish ≤ u.span.start := by
  obtain ⟨nonempty, apart⟩ := spaced
  induction apart with
  | nil => cases first
  | @cons v ts inOrder apart ih =>
    have := nonempty v List.mem_cons_self
    rcases List.mem_cons.mp first with rfl | later <;> rcases List.mem_cons.mp second with rfl | later'
    · omega
    · exact inOrder u later'
    · have := inOrder t later
      omega
    · exact ih later later' fun t member => nonempty t (List.mem_cons_of_mem v member)

/-- A token stands at one place of a text only. -/
theorem Spaced.eq_of_split {ts front front' back back' : List Token} {t : Token} (spaced : Spaced ts) (split : ts = front ++ t :: back)
    (split' : ts = front' ++ t :: back') : front = front' ∧ back = back' := by
  obtain ⟨nonempty, apart⟩ := spaced
  rw [split] at nonempty apart
  obtain ⟨-, inOrder, fromFront⟩ := List.pairwise_append.mp apart
  have sized := nonempty t (by simp)
  have notBefore : t ∉ front := fun inside => by
    have := fromFront t inside t List.mem_cons_self
    omega
  have notBehind : t ∉ back := fun inside => by
    have := List.rel_of_pairwise_cons inOrder inside
    omega
  obtain ⟨same, -, same'⟩ := (List.append_cons_inj_of_notMem notBefore notBehind).mp (split.symm.trans split')
  exact ⟨same, same'⟩

/-- A token of a text that ends before the tokens that are left. -/
structure Behind (ts rest : List Token) (t : Token) : Prop where
  member : t ∈ ts
  before : ∀ u ∈ rest, t.span.finish ≤ u.span.start

theorem Behind.mono {ts rest later : List Token} {t : Token} (behind : Behind ts rest t) (suffix : later <:+ rest) :
    Behind ts later t :=
  ⟨behind.member, fun u member => behind.before u (suffix.subset member)⟩

theorem Spaced.behind_head {ts rest : List Token} {t : Token} (spaced : Spaced ts) (suffix : t :: rest <:+ ts) :
    Behind ts rest t :=
  ⟨suffix.subset List.mem_cons_self, fun _ => List.rel_of_pairwise_cons (spaced.apart.sublist suffix.sublist)⟩

theorem Behind.start_ne {ts rest : List Token} {t u : Token} (spaced : Spaced ts) (behind : Behind ts rest t)
    (ahead : u ∈ rest) : t.span.start ≠ u.span.start := by
  have := spaced.nonempty t behind.member
  have := behind.before u ahead
  omega

/-! ## Recorded points -/

namespace RewritePoint

/-- Whether a point is the place of a generated key. -/
def isKey : RewritePoint → Bool
  | generatedKey .. => true
  | _ => false

/-- The token of a point: the identifier that names the table, or the integer that is the bound. -/
def At (t : Token) : RewritePoint → Prop
  | table span name quote => t.span = span ∧ t.kind = quote.elim (.identifier name) (.quotedIdentifier name)
  | offset span n => t.span = span ∧ t.kind = .integer n
  | rowCount span n => t.span = span ∧ t.kind = .integer n
  | generatedKey .. => False

theorem at_ofTable {t : Token} (names : t.kind.isIdentifier = true) : (ofTable (.ofToken t)).At t := by
  obtain ⟨kind, span, line, column⟩ := t
  cases kind with
  | identifier | quotedIdentifier => exact ⟨rfl, rfl⟩
  | _ => cases names

theorem At.position_eq {t : Token} {q : RewritePoint} (placed : q.At t) : q.position = t.span.start := by
  cases q with
  | generatedKey => cases placed
  | _ => rw [placed.1]; rfl

theorem At.isKey_eq {t : Token} {q : RewritePoint} (placed : q.At t) : q.isKey = false := by
  cases q with
  | generatedKey => cases placed
  | _ => rfl

/-- An identifier is the token of one point only. -/
theorem At.eq_ofTable {t : Token} {q : RewritePoint} (placed : q.At t) (names : t.kind.isIdentifier = true) :
    q = ofTable (.ofToken t) := by
  obtain ⟨kind, span, line, column⟩ := t
  cases q with
  | table _ name quote =>
    obtain ⟨rfl, rfl⟩ := placed
    cases quote <;> rfl
  | offset | rowCount =>
    obtain ⟨-, rfl⟩ := placed
    cases names
  | generatedKey => cases placed

end RewritePoint

theorem Identifier.span_ofToken (t : Token) : (ofToken t).span = t.span := by
  obtain ⟨kind, span, line, column⟩ := t
  cases kind <;> rfl

/-- The identifier of a token that is behind. -/
def NameBehind (ts rest : List Token) (x : Identifier) : Prop :=
  ∃ t, Behind ts rest t ∧ t.kind.isIdentifier = true ∧ x = .ofToken t

theorem NameBehind.mono {ts rest later : List Token} {x : Identifier} (named : NameBehind ts rest x)
    (suffix : later <:+ rest) : NameBehind ts later x := by
  obtain ⟨t, behind, names, rfl⟩ := named
  exact ⟨t, behind.mono suffix, names, rfl⟩

theorem NameBehind.start_ne {ts rest : List Token} {x : Identifier} {t : Token} (spaced : Spaced ts)
    (named : NameBehind ts rest x) (ahead : t ∈ rest) : x.span.start ≠ t.span.start := by
  obtain ⟨u, behind, -, rfl⟩ := named
  rw [Identifier.span_ofToken]
  exact behind.start_ne spaced ahead

/-- The identifier of a token that was passed between two places of a walk. -/
def NameBetween (ts rest later : List Token) (x : Identifier) : Prop :=
  ∃ t ∈ rest, Behind ts later t ∧ t.kind.isIdentifier = true ∧ x = .ofToken t

theorem NameBetween.behind {ts rest later : List Token} {x : Identifier} (named : NameBetween ts rest later x) :
    NameBehind ts later x := by
  obtain ⟨t, -, behind, names, rfl⟩ := named
  exact ⟨t, behind, names, rfl⟩

theorem NameBetween.mono {ts rest earlier later last : List Token} {x : Identifier} (named : NameBetween ts rest later x)
    (before : rest <:+ earlier) (after : last <:+ later) : NameBetween ts earlier last x := by
  obtain ⟨t, member, behind, names, rfl⟩ := named
  exact ⟨t, before.subset member, behind.mono after, names, rfl⟩

/-- What a statement has recorded when some tokens of a text are left. -/
structure Recorded (ts rest : List Token) (s : Statement) : Prop where
  points : ∀ q ∈ s.points, q.isKey = false → ∃ t, Behind ts rest t ∧ q.At t
  unique : ∀ q ∈ s.points, ∀ r ∈ s.points, q.isKey = false → r.isKey = false → q.position = r.position → q = r
  qualifiers : ∀ x ∈ s.qualifiers, NameBehind ts rest x

namespace Recorded

variable {ts rest : List Token} {s : Statement} (spaced : Spaced ts) (recorded : Recorded ts rest s)

include recorded

theorem mono {later : List Token} (suffix : later <:+ rest) : Recorded ts later s where
  points q member plain := by
    obtain ⟨t, behind, placed⟩ := recorded.points q member plain
    exact ⟨t, behind.mono suffix, placed⟩
  unique := recorded.unique
  qualifiers x member := (recorded.qualifiers x member).mono suffix

/-- A point at a token that no other point is recorded at. -/
theorem addPoint {t : Token} {q : RewritePoint} (behind : Behind ts rest t) (placed : q.At t)
    (only : ∀ r ∈ s.points, r.isKey = false → r.position = t.span.start → r = q) : Recorded ts rest (s.addPoint q) := by
  have samePlace := placed.position_eq
  refine ⟨fun r member plain => ?_, fun r first r' second plain plain' same => ?_, recorded.qualifiers⟩
  · rcases List.mem_append.mp member with old | new
    · exact recorded.points r old plain
    · rw [List.mem_singleton.mp new]
      exact ⟨t, behind, placed⟩
  · rcases List.mem_append.mp first with old | new <;> rcases List.mem_append.mp second with old' | new'
    · exact recorded.unique r old r' old' plain plain' same
    · obtain rfl := List.mem_singleton.mp new'
      exact only r old plain (same.trans samePlace)
    · obtain rfl := List.mem_singleton.mp new
      exact (only r' old' plain' (same.symm.trans samePlace)).symm
    · rw [List.mem_singleton.mp new, List.mem_singleton.mp new']

theorem addQualifier {x : Identifier} (named : NameBehind ts rest x) : Recorded ts rest (s.addQualifier x) where
  points := recorded.points
  unique := recorded.unique
  qualifiers y member := by
    rcases List.mem_append.mp member with old | new
    · exact recorded.qualifiers y old
    · rwa [List.mem_singleton.mp new]

include spaced

theorem addTable {x : Identifier} (named : NameBehind ts rest x) (aliasName : Option String) :
    Recorded ts rest (s.addTable x aliasName) := by
  obtain ⟨t, behind, names, rfl⟩ := named
  have added := recorded.addPoint behind (RewritePoint.at_ofTable names) fun r member plain same => by
    obtain ⟨u, behind', placed⟩ := recorded.points r member plain
    have : u = t := spaced.eq_of_start behind'.member behind.member (placed.position_eq.symm.trans same)
    exact (this ▸ placed).eq_ofTable names
  exact ⟨added.points, added.unique, recorded.qualifiers⟩

end Recorded

/-! ## Walks over some tokens -/

/-- A state whose cursor stands on the first of the tokens of a text that are left. -/
structure Standing (d : Dialect) (p : Place) (ts rest : List Token) (s : WalkState) : Prop where
  suffix : rest <:+ ts
  cursor : ∃ n, s.cursor = .along d p n rest

/-- A state that a walk comes to from the given tokens without recording anything. -/
def Still (d : Dialect) (p : Place) (ts : List Token) (st : Statement) (s : WalkState) : Prop :=
  s.cursor.Within d p ts ∧ s.statement = st

/-- Some of the tokens that were left are passed, and nothing is recorded. -/
structure Moved (d : Dialect) (p : Place) (ts rest later : List Token) (s u : WalkState) : Prop where
  suffix : later <:+ rest
  standing : Standing d p ts later u
  unchanged : u.statement = s.statement

variable {d : Dialect} {p : Place} {ts rest : List Token} {st : Statement} {s u : WalkState} (proper : Proper ts)
  (spaced : Spaced ts)

theorem Standing.still (standing : Standing d p ts rest s) : Still d p rest s.statement s := by
  obtain ⟨-, n, same⟩ := standing
  exact ⟨⟨n, rest, List.suffix_refl rest, same⟩, rfl⟩

theorem Moved.refl (standing : Standing d p ts rest s) : Moved d p ts rest rest s s :=
  ⟨List.suffix_refl rest, standing, rfl⟩

theorem Moved.trans {mid later : List Token} {t : WalkState} (first : Moved d p ts rest mid s t)
    (second : Moved d p ts mid later t u) : Moved d p ts rest later s u :=
  ⟨second.suffix.trans first.suffix, second.standing, second.unchanged.trans first.unchanged⟩

section Steps

include proper

theorem still_inStep : (Company.keeping (Still d p ts st)).InStep :=
  Company.keeping_inStep fun s _ u run holds => by
    obtain ⟨next, step, -, rfl⟩ := Walk.advance_eq_ok_iff.mp run
    exact ⟨Cursor.within_step proper step holds.1, holds.2⟩

namespace Standing

variable (standing : Standing d p ts rest s)

include standing

theorem proper_rest : Proper rest := fun t member => proper t (standing.suffix.subset member)

/-- A walk that records nothing only moves on. -/
theorem silent {α : Type} {m : Walk α} {a : α} (run : m s = .ok a u)
    (keeps : (Company.keeping (Still d p rest s.statement)).InStep → Walk.Keeps (Still d p rest s.statement) m) :
    ∃ later, Moved d p ts rest later s u := by
  obtain ⟨⟨n, later, suffix, same⟩, unchanged⟩ :=
    keeps (still_inStep (standing.proper_rest proper)) _ _ _ run standing.still
  exact ⟨later, suffix, ⟨suffix.trans standing.suffix, n, same⟩, unchanged⟩

theorem eat {k : TokenKind} {found : Bool} (run : Walk.eat k s = .ok found u) :
    ∃ later, Moved d p ts rest later s u :=
  standing.silent proper run fun inStep => (inStep.eat (b := false) k).keeps

theorem expect {k : TokenKind} (run : discard (Walk.expect k) s = .ok () u) : ∃ later, Moved d p ts rest later s u :=
  standing.silent proper run fun inStep => (inStep.expect (b := false) k).keeps.discards

theorem advance {t : Token} (run : Walk.advance s = .ok t u) :
    ∃ later, Moved d p ts rest later s u ∧ (rest = [] ∨ rest = t :: later) := by
  obtain ⟨suffix, n, same⟩ := standing
  obtain ⟨next, step, rfl, rfl⟩ := Walk.advance_eq_ok_iff.mp run
  rw [same] at step ⊢
  cases rest with
  | nil =>
    rw [Cursor.along_step_nil] at step
    cases step
    exact ⟨[], ⟨List.suffix_refl [], ⟨suffix, n, rfl⟩, rfl⟩, .inl rfl⟩
  | cons t later =>
    rw [Cursor.along_step fun u member => proper u (suffix.subset member)] at step
    cases step
    have tail := List.suffix_cons t later
    exact ⟨later, ⟨tail, ⟨tail.trans suffix, _, rfl⟩, rfl⟩, .inr rfl⟩

theorem identifier {x : Identifier} (run : Walk.identifier s = .ok x u) :
    ∃ t later, rest = t :: later ∧ t.kind.isIdentifier = true ∧ x = .ofToken t ∧ Moved d p ts rest later s u := by
  obtain ⟨n, same⟩ := standing.cursor
  obtain ⟨_, _, ⟨⟩, run⟩ := Walk.bind_eq_ok_iff.mp run
  split at run
  · next names =>
    rw [same] at names
    obtain ⟨t, advanced, rfl⟩ := Walk.map_eq_ok_iff.mp run
    obtain ⟨later, moved, rfl | rfl⟩ := standing.advance proper advanced
    · cases names
    · exact ⟨t, later, rfl, names, rfl, moved⟩
  · cases run

include spaced

theorem name {x : Identifier} (run : Walk.identifier s = .ok x u) :
    ∃ later, Moved d p ts rest later s u ∧ NameBetween ts rest later x := by
  obtain ⟨t, later, rfl, names, rfl, moved⟩ := standing.identifier proper run
  exact ⟨later, moved, t, List.mem_cons_self, spaced.behind_head standing.suffix, names, rfl⟩

theorem qualifiedName {x : Identifier} (run : Walk.qualifiedName s = .ok x u) :
    ∃ later, Moved d p ts rest later s u ∧ NameBetween ts rest later x := by
  obtain ⟨first, s₁, identifies, run⟩ := Walk.bind_eq_ok_iff.mp run
  obtain ⟨rest₁, moved₁, named⟩ := standing.name proper spaced identifies
  obtain ⟨found, s₂, eats, run⟩ := Walk.bind_eq_ok_iff.mp run
  obtain ⟨rest₂, moved₂⟩ := moved₁.standing.eat proper eats
  split at run
  · obtain ⟨rest₃, moved₃, named⟩ := moved₂.standing.name proper spaced run
    exact ⟨rest₃, moved₁.trans (moved₂.trans moved₃), named.mono (moved₁.trans moved₂).suffix (List.suffix_refl _)⟩
  · obtain ⟨rfl, rfl⟩ := Walk.pure_eq_ok_iff.mp run
    exact ⟨rest₂, moved₁.trans moved₂, named.mono (List.suffix_refl _) moved₂.suffix⟩

theorem nameParts {earlier : List Token} {first : Identifier} (suffix : rest <:+ earlier)
    (named : NameBetween ts earlier rest first) {parts : List Identifier} {star : Bool}
    (run : Walk.nameParts first s = .ok (parts, star) u) :
    ∃ later, Moved d p ts rest later s u ∧ ∀ x ∈ parts, NameBetween ts earlier later x := by
  refine Walk.repeatFrom_invariant (J := fun named u =>
    ∃ later, Moved d p ts rest later s u ∧ ∀ x ∈ named.1, NameBetween ts earlier later x) ?_ run ?_
  · rintro ⟨parts, _⟩ s₁ ⟨again, parts', star⟩ u ⟨rest₁, moved₁, named⟩ round
    obtain ⟨found, s₂, eats, round⟩ := Walk.bind_eq_ok_iff.mp round
    obtain ⟨rest₂, moved₂⟩ := moved₁.standing.eat proper eats
    have still (x) (member : x ∈ parts) : NameBetween ts earlier rest₂ x :=
      (named x member).mono (List.suffix_refl _) moved₂.suffix
    split at round
    · obtain ⟨_, _, ⟨⟩, round⟩ := Walk.bind_eq_ok_iff.mp round
      split at round
      · obtain ⟨part, s₃, identifies, round⟩ := Walk.bind_eq_ok_iff.mp round
        obtain ⟨rest₃, moved₃, new⟩ := moved₂.standing.name proper spaced identifies
        obtain ⟨same, rfl⟩ := Walk.pure_eq_ok_iff.mp round
        cases same
        refine ⟨rest₃, moved₁.trans (moved₂.trans moved₃), fun x member => ?_⟩
        rcases List.mem_append.mp member with old | last
        · exact (still x old).mono (List.suffix_refl _) moved₃.suffix
        · rw [List.mem_singleton.mp last]
          exact new.mono ((moved₁.trans moved₂).suffix.trans suffix) (List.suffix_refl _)
      · split at round
        · obtain ⟨_, s₃, passes, round⟩ := Walk.bind_eq_ok_iff.mp round
          obtain ⟨t, advances, -⟩ := Walk.map_eq_ok_iff.mp passes
          obtain ⟨same, rfl⟩ := Walk.pure_eq_ok_iff.mp round
          cases same
          obtain ⟨rest₃, moved₃, -⟩ := moved₂.standing.advance proper advances
          exact ⟨rest₃, moved₁.trans (moved₂.trans moved₃), fun x member =>
            (still x member).mono (List.suffix_refl _) moved₃.suffix⟩
        · cases round
    · obtain ⟨same, rfl⟩ := Walk.pure_eq_ok_iff.mp round
      cases same
      exact ⟨rest₂, moved₁.trans moved₂, still⟩
  · refine ⟨rest, .refl standing, ?_⟩
    intro x member
    rwa [List.mem_singleton.mp member]

end Standing

end Steps

/-! ## Bounds -/

/-- The token of a bound: an integer of its value, if it is a literal. -/
structure PlacedBound.At (t : Token) (b : PlacedBound) : Prop where
  span : t.span = b.span
  literal : ∀ n, b.bound = .literal n → t.kind = .integer n

/-- The bound of a token that was passed between two places of a walk. -/
def BoundBetween (ts rest later : List Token) (b : PlacedBound) : Prop :=
  ∃ t ∈ rest, Behind ts later t ∧ b.At t

theorem BoundBetween.mono {ts rest earlier later last : List Token} {b : PlacedBound}
    (between : BoundBetween ts rest later b) (before : rest <:+ earlier) (after : last <:+ later) :
    BoundBetween ts earlier last b := by
  obtain ⟨t, member, behind, placed⟩ := between
  exact ⟨t, before.subset member, behind.mono after, placed⟩

/-- The bounds of two tokens, or of fewer, that were passed between two places of a walk. -/
structure BoundsBetween (ts rest later : List Token) (rowCount? offset? : Option PlacedBound) : Prop where
  rowCount : ∀ b, rowCount? = some b → BoundBetween ts rest later b
  offset : ∀ b, offset? = some b → BoundBetween ts rest later b
  apart : ∀ b c, rowCount? = some b → offset? = some c → c.span.start ≠ b.span.start

/-! ## What walks record -/

/-- Something that depends on the tokens that are left and on what has been recorded is tracked if it stays when names and
bounds are recorded that were passed since it held. A name may be recorded later. -/
structure Trackable (ts : List Token) (J : List Token → Statement → Prop) : Prop where
  mono : ∀ {rest later st}, later <:+ rest → J rest st → J later st
  conditions : ∀ {rest st} cs, J rest st → J rest { st with conditions := cs }
  rows : ∀ {rest st} columns n, J rest st → J rest { st with insertColumns := columns, insertRows := n }
  name : ∀ {rest later st x}, NameBetween ts rest later x → J rest st → ∀ {last st'}, last <:+ later → J last st' →
    J last (st'.addQualifier x) ∧ ∀ aliasName, J last (st'.addTable x aliasName)
  paginate : ∀ {rest later st rowCount offset} rewritable, later <:+ rest → BoundsBetween ts rest later rowCount offset →
    J rest st → J later (st.paginate rowCount offset rewritable)
  key : ∀ {rest st} columnsEnd valuesEnd parameterIndex, J rest st →
    J rest (st.addPoint (.generatedKey columnsEnd valuesEnd parameterIndex))

/-- A state of which something holds, reached within some tokens of the text. -/
def Tracked (d : Dialect) (p : Place) (ts : List Token) (J : List Token → Statement → Prop) (bound : List Token)
    (s : WalkState) : Prop :=
  ∃ rest, rest <:+ bound ∧ Standing d p ts rest s ∧ J rest s.statement

section Tracked

variable {bound : List Token} {J : List Token → Statement → Prop} (trackable : Trackable ts J)

include trackable

theorem Trackable.moved {later : List Token} (holds : J rest s.statement) (moved : Moved d p ts rest later s u) :
    J later u.statement :=
  moved.unchanged ▸ trackable.mono moved.suffix holds

include proper

theorem tracked_advance : Walk.Keeps (Tracked d p ts J bound) Walk.advance := by
  rintro s t u run ⟨rest, within, standing, holds⟩
  obtain ⟨later, moved, -⟩ := standing.advance proper run
  exact ⟨later, moved.suffix.trans within, moved.standing, trackable.moved holds moved⟩

include spaced

theorem tracked_column : Walk.Keeps (Tracked d p ts J bound) Walk.column := by
  rintro s x u run ⟨rest, within, standing, holds⟩
  obtain ⟨first, s₁, identifies, run⟩ := Walk.bind_eq_ok_iff.mp run
  obtain ⟨rest₁, moved₁, named⟩ := standing.name proper spaced identifies
  obtain ⟨⟨parts, star⟩, s₂, names, run⟩ := Walk.bind_eq_ok_iff.mp run
  obtain ⟨rest₂, moved₂, named⟩ := moved₁.standing.nameParts proper spaced moved₁.suffix named names
  have moved := moved₁.trans moved₂
  have within₂ : rest₂ <:+ bound := moved.suffix.trans within
  have tracked : Tracked d p ts J bound s₂ := ⟨rest₂, within₂, moved.standing, trackable.moved holds moved⟩
  have qualified {owner : Identifier} (member : owner ∈ parts) {v : WalkState} {y z : Option Column}
      (records : (do Walk.record (·.addQualifier owner); return y) s₂ = .ok z v) : Tracked d p ts J bound v := by
    obtain ⟨_, _, ⟨⟩, records⟩ := Walk.bind_eq_ok_iff.mp records
    obtain ⟨-, rfl⟩ := Walk.pure_eq_ok_iff.mp records
    exact ⟨rest₂, within₂, ⟨moved.standing.suffix, moved.standing.cursor⟩,
      (trackable.name (named owner member) holds (List.suffix_refl _) (trackable.moved holds moved)).1⟩
  dsimp only at run
  split at run
  · cases last : parts.getLast? with
    | none =>
      rw [last] at run
      obtain ⟨-, rfl⟩ := Walk.pure_eq_ok_iff.mp run
      exact tracked
    | some owner =>
      rw [last] at run
      exact qualified (List.mem_of_getLast? last) run
  · cases reversed : parts.reverse with
    | nil =>
      rw [reversed] at run
      obtain ⟨-, rfl⟩ := Walk.pure_eq_ok_iff.mp run
      exact tracked
    | cons last others =>
      rw [reversed] at run
      cases others with
      | nil =>
        obtain ⟨-, rfl⟩ := Walk.pure_eq_ok_iff.mp run
        exact tracked
      | cons owner others =>
        refine qualified (List.mem_reverse.mp ?_) run
        rw [reversed]
        exact List.mem_cons_of_mem _ List.mem_cons_self

theorem tracked_table : Walk.Keeps (Tracked d p ts J bound) Walk.aliasedTable := by
  rintro s x u run ⟨rest, within, standing, holds⟩
  obtain ⟨name, s₁, names, run⟩ := Walk.bind_eq_ok_iff.mp run
  obtain ⟨rest₁, moved₁, named⟩ := standing.qualifiedName proper spaced names
  obtain ⟨aliasName, s₂, aliases, run⟩ := Walk.bind_eq_ok_iff.mp run
  obtain ⟨rest₂, moved₂⟩ := moved₁.standing.silent proper aliases fun inStep =>
    .of_discard (inStep.discard_alias? (b := false)).keeps
  cases run
  have moved := moved₁.trans moved₂
  exact ⟨rest₂, moved.suffix.trans within, ⟨moved.standing.suffix, moved.standing.cursor⟩,
    (trackable.name named holds moved₂.suffix (trackable.moved holds moved)).2 aliasName⟩

theorem tracked_name : Walk.Keeps (Tracked d p ts J bound) Walk.tableName := by
  rintro s x u run ⟨rest, within, standing, holds⟩
  obtain ⟨name, s₁, names, run⟩ := Walk.bind_eq_ok_iff.mp run
  obtain ⟨rest₁, moved, named⟩ := standing.qualifiedName proper spaced names
  cases run
  exact ⟨rest₁, moved.suffix.trans within, ⟨moved.standing.suffix, moved.standing.cursor⟩,
    (trackable.name named holds (List.suffix_refl _) (trackable.moved holds moved)).2 none⟩

end Tracked

/-! ## Points at tokens behind -/

theorem Statement.mem_addBoundPoint {point : Span → Int64 → RewritePoint} {s : Statement} {b : Option PlacedBound}
    {q : RewritePoint} (member : q ∈ (s.addBoundPoint point b).points) :
    q ∈ s.points ∨ ∃ span n, b = some ⟨.literal n, span⟩ ∧ q = point span n := by
  match b with
  | some ⟨.literal n, span⟩ =>
    rcases List.mem_append.mp member with old | new
    · exact .inl old
    · exact .inr ⟨span, n, rfl, List.mem_singleton.mp new⟩
  | some ⟨.placeholder _, _⟩ => exact .inl member
  | none => exact .inl member

namespace Recorded

variable {later : List Token} {s : Statement}

theorem addBoundPoint {point : Span → Int64 → RewritePoint} {b : Option PlacedBound} (recorded : Recorded ts later s)
    (kind : ∀ t n, t.kind = .integer n → (point t.span n).At t)
    (behind : ∀ c, b = some c → ∃ t, Behind ts later t ∧ c.At t)
    (fresh : ∀ c, b = some c → ∀ q ∈ s.points, q.isKey = false → q.position ≠ c.span.start) :
    Recorded ts later (s.addBoundPoint point b) := by
  match b with
  | some ⟨.literal n, span⟩ =>
    obtain ⟨t, passed, samePlace, literal⟩ := behind _ rfl
    obtain rfl : t.span = span := samePlace
    exact recorded.addPoint passed (kind t n (literal n rfl)) fun r member plain same =>
      absurd same (fresh _ rfl r member plain)
  | some ⟨.placeholder _, _⟩ => exact recorded
  | none => exact recorded

include spaced in
/-- Recording the bounds that were passed since, if they are bounds of two tokens. -/
theorem paginate {rowCount offset : Option PlacedBound} {rewritable : Bool} (recorded : Recorded ts rest s)
    (suffix : later <:+ rest) (between : BoundsBetween ts rest later rowCount offset) :
    Recorded ts later (s.paginate rowCount offset rewritable) := by
  obtain ⟨row, off, apart⟩ := between
  have fresh {b : PlacedBound} (between : BoundBetween ts rest later b) :
      ∀ q ∈ s.points, q.isKey = false → q.position ≠ b.span.start := by
    intro q member plain
    obtain ⟨t, ahead, -, samePlace, -⟩ := between
    obtain ⟨u, behind, placed⟩ := recorded.points q member plain
    rw [placed.position_eq, ← samePlace]
    exact behind.start_ne spaced ahead
  have withOffset : Recorded ts later (s.addBoundPoint .offset offset) := by
    refine (recorded.mono suffix).addBoundPoint (fun t n kind => ⟨rfl, kind⟩) (fun c is => ?_) fun c is => fresh (off c is)
    obtain ⟨t, -, behind, placed⟩ := off c is
    exact ⟨t, behind, placed⟩
  have both : Recorded ts later ((s.addBoundPoint .offset offset).addBoundPoint .rowCount rowCount) := by
    refine withOffset.addBoundPoint (fun t n kind => ⟨rfl, kind⟩) (fun c is => ?_) fun c is q member plain => ?_
    · obtain ⟨t, -, behind, placed⟩ := row c is
      exact ⟨t, behind, placed⟩
    · rcases Statement.mem_addBoundPoint member with old | ⟨span, n, isOffset, rfl⟩
      · exact fresh (row c is) q old plain
      · exact apart c _ is isOffset
  exact ⟨both.points, both.unique, both.qualifiers⟩

end Recorded

/-! ## Pagination clauses -/

section Clauses

include spaced

theorem BoundBetween.start_ne {first mid last : List Token} {b c : PlacedBound} (earlier : BoundBetween ts first mid b)
    (after : BoundBetween ts mid last c) : b.span.start ≠ c.span.start := by
  obtain ⟨t, -, behind, placed, -⟩ := earlier
  obtain ⟨u, ahead, -, placed', -⟩ := after
  rw [← placed, ← placed']
  exact behind.start_ne spaced ahead

include proper

/-- A bound is the token that is passed. -/
theorem Standing.bound (standing : Standing d p ts rest s) {b : PlacedBound} (run : Walk.bound s = .ok b u) :
    ∃ later, Moved d p ts rest later s u ∧ BoundBetween ts rest later b := by
  have passed {c : PlacedBound} {n : Nat} (atCursor : s.cursor = .along d p n rest) (inside : s.cursor.kind ≠ .endOfInput)
      (span : c.span = s.cursor.current.span) (literal : ∀ i, c.bound = .literal i → s.cursor.kind = .integer i)
      (run : (do discard Walk.advance; return c) s = .ok b u) :
      ∃ later, Moved d p ts rest later s u ∧ BoundBetween ts rest later b := by
    obtain ⟨_, s₁, passes, run⟩ := Walk.bind_eq_ok_iff.mp run
    obtain ⟨t, advances, -⟩ := Walk.map_eq_ok_iff.mp passes
    obtain ⟨rfl, rfl⟩ := Walk.pure_eq_ok_iff.mp run
    rw [atCursor] at inside span literal
    obtain ⟨later, moved, rfl | rfl⟩ := standing.advance proper advances
    · exact absurd rfl inside
    · exact ⟨later, moved, t, List.mem_cons_self, spaced.behind_head standing.suffix, span.symm, literal⟩
  obtain ⟨n, atCursor⟩ := standing.cursor
  obtain ⟨c, s', ⟨⟩, run⟩ := Walk.bind_eq_ok_iff.mp run
  generalize kind : s.cursor.kind = k at run
  cases k with
  | integer i =>
    dsimp only at run
    split at run
    · exact passed atCursor (by simp [kind]) rfl (fun j same => by cases same; exact kind) run
    · cases run
  | symbol sign =>
    cases sign with
    | question => exact passed atCursor (by simp [kind]) rfl (fun j same => by cases same) run
    | _ => cases run
  | _ => cases run

theorem Standing.limitBounds (standing : Standing d p ts rest s) {first rowCount : PlacedBound}
    {offset : Option PlacedBound} {earlier : List Token} (between : BoundBetween ts earlier rest first)
    (suffix : rest <:+ earlier) (run : Walk.limitBounds first s = .ok (rowCount, offset) u) :
    ∃ later, Moved d p ts rest later s u ∧ BoundBetween ts earlier later rowCount ∧
      ∀ c, offset = some c → BoundBetween ts earlier later c ∧ c.span.start ≠ rowCount.span.start := by
  obtain ⟨_, s₁, eats, run⟩ := Walk.bind_eq_ok_iff.mp run
  obtain ⟨rest₁, moved₁⟩ := standing.eat proper eats
  split at run
  · obtain ⟨second, s₂, reads, run⟩ := Walk.bind_eq_ok_iff.mp run
    obtain ⟨rest₂, moved₂, between₂⟩ := moved₁.standing.bound proper spaced reads
    obtain ⟨same, rfl⟩ := Walk.pure_eq_ok_iff.mp run
    cases same
    have moved := moved₁.trans moved₂
    refine ⟨rest₂, moved, between₂.mono (moved₁.suffix.trans suffix) (List.suffix_refl _), ?_⟩
    rintro _ ⟨⟩
    refine ⟨between.mono (List.suffix_refl _) moved.suffix, ?_⟩
    exact between.start_ne spaced (between₂.mono moved₁.suffix (List.suffix_refl _))
  obtain ⟨_, s₂, eats, run⟩ := Walk.bind_eq_ok_iff.mp run
  obtain ⟨rest₂, moved₂⟩ := moved₁.standing.eat proper eats
  have moved := moved₁.trans moved₂
  split at run
  · obtain ⟨second, s₃, reads, run⟩ := Walk.bind_eq_ok_iff.mp run
    obtain ⟨rest₃, moved₃, between₃⟩ := moved₂.standing.bound proper spaced reads
    obtain ⟨same, rfl⟩ := Walk.pure_eq_ok_iff.mp run
    cases same
    refine ⟨rest₃, moved.trans moved₃, between.mono (List.suffix_refl _) (moved.trans moved₃).suffix, ?_⟩
    rintro _ ⟨⟩
    refine ⟨between₃.mono (moved.suffix.trans suffix) (List.suffix_refl _), ?_⟩
    exact (between.start_ne spaced (between₃.mono moved.suffix (List.suffix_refl _))).symm
  · obtain ⟨same, rfl⟩ := Walk.pure_eq_ok_iff.mp run
    cases same
    exact ⟨rest₂, moved, between.mono (List.suffix_refl _) moved.suffix, nofun⟩

theorem Standing.topGroup (standing : Standing d p ts rest s) {b : Option PlacedBound}
    (run : Walk.topGroup s = .ok b u) :
    ∃ later, Moved d p ts rest later s u ∧ ∀ c, b = some c → BoundBetween ts rest later c := by
  obtain ⟨next, s₁, peeks, body⟩ := Walk.bind_eq_ok_iff.mp run
  obtain ⟨-, rfl⟩ := Walk.peek_eq_ok_iff.mp peeks
  split at body
  · obtain ⟨_, s₂, passes, body⟩ := Walk.bind_eq_ok_iff.mp body
    obtain ⟨t, advances, -⟩ := Walk.map_eq_ok_iff.mp passes
    obtain ⟨rest₂, moved₂, -⟩ := standing.advance proper advances
    obtain ⟨c, s₃, reads, body⟩ := Walk.bind_eq_ok_iff.mp body
    obtain ⟨rest₃, moved₃, between⟩ := moved₂.standing.bound proper spaced reads
    obtain ⟨_, s₄, eats, body⟩ := Walk.bind_eq_ok_iff.mp body
    obtain ⟨rest₄, moved₄⟩ := moved₃.standing.eat proper eats
    have moved := moved₂.trans (moved₃.trans moved₄)
    split at body
    · obtain ⟨rfl, rfl⟩ := Walk.pure_eq_ok_iff.mp body
      refine ⟨rest₄, moved, ?_⟩
      rintro _ ⟨⟩
      exact between.mono moved₂.suffix moved₄.suffix
    · obtain ⟨_, s₅, closes, body⟩ := Walk.bind_eq_ok_iff.mp body
      obtain ⟨rfl, rfl⟩ := Walk.pure_eq_ok_iff.mp body
      obtain ⟨rest₅, moved₅⟩ := moved₄.standing.silent proper closes fun inStep =>
        (inStep.closeParentheses (b := false) (f := pure ()) 1 Walk.failExpected_fails).keeps
      exact ⟨rest₅, moved.trans moved₅, nofun⟩
  · obtain ⟨_, s₂, skips, body⟩ := Walk.bind_eq_ok_iff.mp body
    obtain ⟨rfl, rfl⟩ := Walk.pure_eq_ok_iff.mp body
    obtain ⟨rest₂, moved⟩ := standing.silent proper skips fun inStep => (inStep.skipParentheses (b := false)).keeps
    exact ⟨rest₂, moved, nofun⟩

variable {J : List Token → Statement → Prop} (trackable : Trackable ts J)

include trackable

omit proper spaced in
theorem Tracked.paginate {bound later : List Token} {rowCount offset : Option PlacedBound} {rewritable : Bool}
    (holds : J rest s.statement) (within : rest <:+ bound) (moved : Moved d p ts rest later s u)
    (between : BoundsBetween ts rest later rowCount offset) :
    Tracked d p ts J bound { u with statement := u.statement.paginate rowCount offset rewritable } := by
  refine ⟨later, moved.suffix.trans within, ⟨moved.standing.suffix, moved.standing.cursor⟩, ?_⟩
  rw [moved.unchanged]
  exact trackable.paginate rewritable moved.suffix between holds

theorem tracked_limit {bound : List Token} (r : Bool) : Walk.Keeps (Tracked d p ts J bound) (Walk.limitClause r) := by
  rintro s x u run ⟨rest, within, standing, holds⟩
  obtain ⟨_, s₁, expects, run⟩ := Walk.bind_eq_ok_iff.mp run
  obtain ⟨rest₁, moved₁⟩ := standing.expect proper expects
  obtain ⟨first, s₂, reads, run⟩ := Walk.bind_eq_ok_iff.mp run
  obtain ⟨rest₂, moved₂, between⟩ := moved₁.standing.bound proper spaced reads
  obtain ⟨⟨rowCount, offset⟩, s₃, bounds, run⟩ := Walk.bind_eq_ok_iff.mp run
  have early := between.mono moved₁.suffix (List.suffix_refl _)
  obtain ⟨rest₃, moved₃, row, off⟩ :=
    moved₂.standing.limitBounds proper spaced early (moved₂.suffix.trans moved₁.suffix) bounds
  have moved := moved₁.trans (moved₂.trans moved₃)
  dsimp only at run
  split at run
  · cases run
    refine Tracked.paginate trackable holds within moved ⟨?_, fun c is => (off c is).1, fun b c isRow isOffset => ?_⟩
    · rintro _ ⟨⟩
      exact row
    · cases isRow
      exact (off c isOffset).2
  · obtain ⟨-, rfl⟩ := Walk.pure_eq_ok_iff.mp run
    exact ⟨rest₃, moved.suffix.trans within, moved.standing, trackable.moved holds moved⟩

omit proper spaced in
theorem tracked_offsetFetchEnd {bound later : List Token} (r : Bool) {offset rowCount : Option PlacedBound}
    (holds : J rest s.statement) (within : rest <:+ bound) (moved : Moved d p ts rest later s u)
    (between : BoundsBetween ts rest later rowCount offset) {v : WalkState} {x : Unit}
    (run : Walk.offsetFetchEnd r offset rowCount u = .ok x v) : Tracked d p ts J bound v := by
  rw [Walk.offsetFetchEnd] at run
  split at run
  · obtain ⟨_, _, fails, -⟩ := Walk.bind_eq_ok_iff.mp run
    cases fails
  · dsimp only at run
    split at run
    · cases run
      exact Tracked.paginate trackable holds within moved between
    · obtain ⟨-, rfl⟩ := Walk.pure_eq_ok_iff.mp run
      exact ⟨later, moved.suffix.trans within, moved.standing, trackable.moved holds moved⟩

theorem tracked_offsetFetch {bound : List Token} (r : Bool) :
    Walk.Keeps (Tracked d p ts J bound) (Walk.offsetFetchClause r) := by
  rintro s x u run ⟨rest, within, standing, holds⟩
  obtain ⟨_, s₁, eats, run⟩ := Walk.bind_eq_ok_iff.mp run
  obtain ⟨rest₁, moved₁⟩ := standing.eat proper eats
  have fetched {rest₂ : List Token} {s₂ : WalkState} (offset : Option PlacedBound)
      (moved : Moved d p ts rest rest₂ s s₂) (off : ∀ b, offset = some b → BoundBetween ts rest rest₂ b)
      (run : Walk.fetchEnd r offset s₂ = .ok x u) : Tracked d p ts J bound u := by
    obtain ⟨_, s₃, eats, run⟩ := Walk.bind_eq_ok_iff.mp run
    obtain ⟨rest₃, moved₃⟩ := moved.standing.eat proper eats
    have toRest₃ := moved.trans moved₃
    split at run
    · obtain ⟨_, s₄, words, run⟩ := Walk.bind_eq_ok_iff.mp run
      obtain ⟨rest₄, moved₄⟩ := moved₃.standing.silent proper words fun inStep =>
        (inStep.expectAny (b := false) _ _).keeps.discards
      obtain ⟨b, s₅, reads, run⟩ := Walk.bind_eq_ok_iff.mp run
      obtain ⟨rest₅, moved₅, between⟩ := moved₄.standing.bound proper spaced reads
      obtain ⟨_, s₆, words, run⟩ := Walk.bind_eq_ok_iff.mp run
      obtain ⟨rest₆, moved₆⟩ := moved₅.standing.silent proper words fun inStep =>
        (inStep.expectAny (b := false) _ _).keeps.discards
      obtain ⟨_, s₇, only, run⟩ := Walk.bind_eq_ok_iff.mp run
      obtain ⟨rest₇, moved₇⟩ := moved₆.standing.expect proper only
      have onward := moved₅.trans (moved₆.trans moved₇)
      have toRest₇ := toRest₃.trans (moved₄.trans onward)
      refine tracked_offsetFetchEnd trackable r holds within toRest₇
        ⟨?_, fun c is => ?_, fun b' c isRow is => ?_⟩ run
      · rintro _ ⟨⟩
        exact between.mono (moved₄.suffix.trans toRest₃.suffix) (moved₆.trans moved₇).suffix
      · exact (off c is).mono (List.suffix_refl _) (moved₃.trans (moved₄.trans onward)).suffix
      · cases isRow
        exact (off c is).start_ne spaced (between.mono (moved₄.suffix.trans moved₃.suffix) (List.suffix_refl _))
    · have between : BoundsBetween ts rest rest₃ none offset :=
        ⟨nofun, fun c is => (off c is).mono (List.suffix_refl _) moved₃.suffix, nofun⟩
      exact tracked_offsetFetchEnd trackable r holds within toRest₃ between run
  split at run
  · obtain ⟨b, s₂, reads, run⟩ := Walk.bind_eq_ok_iff.mp run
    obtain ⟨rest₂, moved₂, between⟩ := moved₁.standing.bound proper spaced reads
    obtain ⟨_, s₃, eats, run⟩ := Walk.bind_eq_ok_iff.mp run
    obtain ⟨rest₃, moved₃⟩ := moved₂.standing.silent proper eats fun inStep =>
      (inStep.eatAny (b := false) _).keeps.discards
    refine fetched (some b) (moved₁.trans (moved₂.trans moved₃)) ?_ run
    rintro _ ⟨⟩
    exact between.mono moved₁.suffix moved₃.suffix
  · exact fetched none moved₁ nofun run

theorem tracked_top {bound : List Token} (r : Bool) : Walk.Keeps (Tracked d p ts J bound) (Walk.topClause r) := by
  rintro s x u run ⟨rest, within, standing, holds⟩
  rw [Walk.topClause_eq] at run
  obtain ⟨_, s₁, expects, run⟩ := Walk.bind_eq_ok_iff.mp run
  obtain ⟨rest₁, moved₁⟩ := standing.expect proper expects
  obtain ⟨isGroup, s₂, checks, run⟩ := Walk.bind_eq_ok_iff.mp run
  obtain ⟨rest₂, moved₂⟩ := moved₁.standing.silent proper checks fun inStep => (inStep.check (b := false) _).keeps
  have ended {rest₃ : List Token} {s₃ : WalkState} {b : Option PlacedBound} (moved : Moved d p ts rest rest₃ s s₃)
      (between : ∀ c, b = some c → BoundBetween ts rest rest₃ c) (run : Walk.topEnd r b s₃ = .ok x u) :
      Tracked d p ts J bound u := by
    obtain ⟨percent, s₄, word, run⟩ := Walk.bind_eq_ok_iff.mp run
    obtain ⟨rest₄, moved₄⟩ := moved.standing.silent proper word fun inStep =>
      Walk.passWord_keeps inStep.toAbreast _
    obtain ⟨_, s₅, ties, run⟩ := Walk.bind_eq_ok_iff.mp run
    obtain ⟨rest₅, moved₅⟩ := moved₄.standing.silent proper ties fun inStep =>
      Walk.passTies_keeps inStep.toAbreast
    have toRest₅ := moved.trans (moved₄.trans moved₅)
    split at run
    · cases b with
      | none =>
        obtain ⟨-, rfl⟩ := Walk.pure_eq_ok_iff.mp run
        exact ⟨rest₅, toRest₅.suffix.trans within, toRest₅.standing, trackable.moved holds toRest₅⟩
      | some c =>
        cases run
        refine Tracked.paginate trackable holds within toRest₅ ⟨?_, nofun, nofun⟩
        rintro _ ⟨⟩
        exact (between c rfl).mono (List.suffix_refl _) (moved₄.trans moved₅).suffix
    · obtain ⟨-, rfl⟩ := Walk.pure_eq_ok_iff.mp run
      exact ⟨rest₅, toRest₅.suffix.trans within, toRest₅.standing, trackable.moved holds toRest₅⟩
  have toRest₂ := moved₁.trans moved₂
  split at run
  · obtain ⟨b, s₃, group, run⟩ := Walk.bind_eq_ok_iff.mp run
    obtain ⟨rest₃, moved₃, between⟩ := moved₂.standing.topGroup proper spaced group
    exact ended (toRest₂.trans moved₃) (fun c is => (between c is).mono toRest₂.suffix (List.suffix_refl _)) run
  · obtain ⟨b, s₃, reads, run⟩ := Walk.bind_eq_ok_iff.mp run
    obtain ⟨c, readsBound, rfl⟩ := Walk.map_eq_ok_iff.mp reads
    obtain ⟨rest₃, moved₃, between⟩ := moved₂.standing.bound proper spaced readsBound
    refine ended (toRest₂.trans moved₃) ?_ run
    rintro _ ⟨⟩
    exact between.mono toRest₂.suffix (List.suffix_refl _)

end Clauses

/-! ## Whole statements -/

theorem Recorded.addKey {s : Statement} (recorded : Recorded ts rest s) (columnsEnd valuesEnd parameterIndex : Nat) :
    Recorded ts rest (s.addPoint (.generatedKey columnsEnd valuesEnd parameterIndex)) := by
  have plain {q : RewritePoint} (member : q ∈ s.points ++ [.generatedKey columnsEnd valuesEnd parameterIndex])
      (notKey : q.isKey = false) : q ∈ s.points := by
    rcases List.mem_append.mp member with old | new
    · exact old
    · rw [List.mem_singleton.mp new] at notKey
      cases notKey
  exact ⟨fun q member notKey => recorded.points q (plain member notKey) notKey,
    fun q first r second notKey notKey' => recorded.unique q (plain first notKey) r (plain second notKey') notKey notKey',
    recorded.qualifiers⟩

section Tracked

variable {J : List Token → Statement → Prop} (trackable : Trackable ts J)

include proper spaced

/-- The targets of a DELETE are the names of as many tokens. -/
theorem Standing.deleteTargets (standing : Standing d p ts rest s) {targets : List Identifier}
    (run : Walk.deleteTargets s = .ok targets u) :
    ∃ later, Moved d p ts rest later s u ∧ (∀ x ∈ targets, NameBetween ts rest later x) ∧
      targets.Pairwise fun x y => x.span.start ≠ y.span.start := by
  obtain ⟨first, s₁, names, run⟩ := Walk.bind_eq_ok_iff.mp run
  obtain ⟨rest₁, moved₁, named⟩ := standing.qualifiedName proper spaced names
  refine Walk.repeatFrom_invariant (J := fun targets u =>
    ∃ later, Moved d p ts rest later s u ∧ (∀ x ∈ targets, NameBetween ts rest later x) ∧
      targets.Pairwise fun x y => x.span.start ≠ y.span.start) ?_ run ?_
  · rintro targets s₂ r v ⟨rest₂, moved₂, named, apart⟩ round
    obtain ⟨_, s₃, eats, round⟩ := Walk.bind_eq_ok_iff.mp round
    obtain ⟨rest₃, moved₃⟩ := moved₂.standing.eat proper eats
    have moved := moved₂.trans moved₃
    have still (x) (member : x ∈ targets) : NameBetween ts rest rest₃ x :=
      (named x member).mono (List.suffix_refl _) moved₃.suffix
    split at round
    · obtain ⟨target, s₄, names, round⟩ := Walk.bind_eq_ok_iff.mp round
      obtain ⟨rest₄, moved₄, new⟩ := moved₃.standing.qualifiedName proper spaced names
      obtain ⟨rfl, rfl⟩ := Walk.pure_eq_ok_iff.mp round
      refine ⟨rest₄, moved.trans moved₄, fun x member => ?_, List.pairwise_append.mpr
        ⟨apart, List.pairwise_singleton _ _, fun x member y last => ?_⟩⟩
      · rcases List.mem_append.mp member with old | last
        · exact (still x old).mono (List.suffix_refl _) moved₄.suffix
        · rw [List.mem_singleton.mp last]
          exact new.mono moved.suffix (List.suffix_refl _)
      · obtain ⟨t, ahead, -, -, rfl⟩ := new
        rw [List.mem_singleton.mp last, Identifier.span_ofToken]
        exact (still x member).behind.start_ne spaced ahead
    · obtain ⟨rfl, rfl⟩ := Walk.pure_eq_ok_iff.mp round
      exact ⟨rest₃, moved, still, apart⟩
  · refine ⟨rest₁, moved₁, fun x member => ?_, List.pairwise_singleton _ _⟩
    rwa [List.mem_singleton.mp member]

include trackable

theorem tracked_keptByParts (bound : List Token) : Walk.KeptByParts (Tracked d p ts J bound) fun _ => True where
  advance := tracked_advance proper trackable
  conditions _ cs := fun ⟨rest, within, standing, holds⟩ =>
    ⟨rest, within, ⟨standing.suffix, standing.cursor⟩, trackable.conditions cs holds⟩
  column := tracked_column proper spaced trackable
  table := tracked_table proper spaced trackable
  records_false := trivial
  limit r _ := tracked_limit proper spaced trackable r
  offsetFetch r _ := tracked_offsetFetch proper spaced trackable r
  top := tracked_top proper spaced trackable

omit proper spaced in
/-- Targets may be recorded when more tokens have been passed. -/
theorem Trackable.targets {st : Statement} {later last : List Token} {targets : List Identifier}
    (named : ∀ x ∈ targets, NameBetween ts rest later x) (earlier : J rest st) (suffix : last <:+ later) {st' : Statement}
    (holds : J last st') : J last (targets.foldl Walk.addTarget st') := by
  induction targets generalizing st' with
  | nil => exact holds
  | cons x targets ih =>
    refine ih (fun y member => named y (List.mem_cons_of_mem x member)) ?_
    rw [Walk.addTarget]
    split
    · exact (trackable.name (named x List.mem_cons_self) earlier suffix holds).2 none
    · exact holds

theorem tracked_targets (bound : List Token) : Walk.Keeps (Tracked d p ts J bound) Walk.targetsEnd := by
  rintro s x u run ⟨rest, within, standing, holds⟩
  obtain ⟨targets, s₁, reads, run⟩ := Walk.bind_eq_ok_iff.mp run
  obtain ⟨rest₁, moved₁, named, -⟩ := standing.deleteTargets proper spaced reads
  -- what follows the targets stays within the tokens after them, so the targets stay behind
  have steady := Company.keeping_steady (tracked_keptByParts (d := d) (p := p) proper spaced trackable rest₁)
  have tracked : Tracked d p ts J rest₁ s₁ :=
    ⟨rest₁, List.suffix_refl rest₁, moved₁.standing, trackable.moved holds moved₁⟩
  have ended {v : WalkState} (tracked : Tracked d p ts J rest₁ v)
      (run : Walk.record (targets.foldl Walk.addTarget) v = .ok x u) : Tracked d p ts J bound u := by
    obtain ⟨rest₂, suffix, standing, later⟩ := tracked
    cases run
    exact ⟨rest₂, suffix.trans (moved₁.suffix.trans within), ⟨standing.suffix, standing.cursor⟩,
      trackable.targets named holds suffix later⟩
  obtain ⟨isFrom, s₂, eats, run⟩ := Walk.bind_eq_ok_iff.mp run
  have tracked₂ := (steady.eat (b := false) _).keeps _ _ _ eats tracked
  split at run
  · obtain ⟨_, s₃, tables, run⟩ := Walk.bind_eq_ok_iff.mp run
    exact ended (steady.tableReferences.keeps _ _ _ tables tracked₂) run
  · exact ended tracked₂ run

/-- Every walk over a statement keeps what is tracked. -/
theorem tracked_keptByStatements (bound : List Token) : Walk.KeptByStatements (Tracked d p ts J bound) fun _ => True where
  toKeptByParts := tracked_keptByParts proper spaced trackable bound
  rows _ columns n := fun ⟨rest, within, standing, holds⟩ =>
    ⟨rest, within, ⟨standing.suffix, standing.cursor⟩, trackable.rows columns n holds⟩
  name := tracked_name proper spaced trackable
  targets := tracked_targets proper spaced trackable bound

omit proper spaced in
theorem tracked_keyPoints (bound : List Token) : (Company.keeping (Tracked d p ts J bound)).KeyPoints fun _ _ => True :=
  Company.keeping_keyPoints fun columnsEnd valuesEnd n => .records fun _ ⟨rest, within, standing, holds⟩ =>
    ⟨rest, within, ⟨standing.suffix, standing.cursor⟩, trackable.key columnsEnd valuesEnd n holds⟩

end Tracked

/-- What is recorded are points of tokens that were passed. -/
theorem Recorded.trackable (spaced : Spaced ts) : Trackable ts (Recorded ts) where
  mono suffix recorded := recorded.mono suffix
  conditions _ recorded := ⟨recorded.points, recorded.unique, recorded.qualifiers⟩
  rows _ _ recorded := ⟨recorded.points, recorded.unique, recorded.qualifiers⟩
  name named _ _ _ suffix recorded :=
    ⟨recorded.addQualifier (named.behind.mono suffix), recorded.addTable spaced (named.behind.mono suffix)⟩
  paginate _ suffix between recorded := recorded.paginate spaced suffix between
  key columnsEnd valuesEnd parameterIndex recorded := recorded.addKey columnsEnd valuesEnd parameterIndex

include proper spaced in
theorem recorded_wholeStatement {kind : StatementKind} {n : Nat} {st : Statement}
    (run : Walk.wholeStatement kind ⟨.along d p 0 ts, .ofKind kind⟩ = .ok () ⟨.along d p n [], st⟩) :
    Recorded ts [] st := by
  have trackable := Recorded.trackable spaced
  have start : Tracked d p ts (Recorded ts) ts ⟨.along d p 0 ts, .ofKind kind⟩ :=
    ⟨ts, List.suffix_refl ts, ⟨List.suffix_refl ts, 0, rfl⟩, nofun, nofun, nofun⟩
  have settled := Company.keeping_settled (tracked_keptByStatements (d := d) (p := p) proper spaced trackable ts)
  obtain ⟨rest, -, -, recorded⟩ :=
    (settled.wholeStatement (b := false) (tracked_keyPoints trackable ts) trivial kind).keeps _ _ _ run start
  exact recorded.mono (List.nil_suffix)

end SqlSharding.Sql
