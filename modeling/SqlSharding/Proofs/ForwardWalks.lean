import SqlSharding.Proofs.Paging
import SqlSharding.Proofs.Statements

/-!
# Progress of walks

A walk never goes back in a text, so the tokens that are left tell how far it is. A walk without loops and nested readers
passes at least some tokens when it succeeds, and what it reports when it fails is in the text.
-/

namespace SqlSharding.Sql

variable {d : Dialect} {α β : Type}

/-! ## Genuine errors -/

/-- A reader that gives up reports a cause that is not in the text. All others are. -/
def SyntaxError.Genuine (e : SyntaxError) : Prop := e.cause ≠ .nestingTooDeep

def Lexeme.Genuine : Lexeme → Prop
  | token .. => True
  | fault cause _ => cause ≠ .nestingTooDeep
  | stuck cause => cause ≠ .nestingTooDeep

/-- All faults of a stream are genuine. -/
def TokenStream.Genuine : TokenStream → Prop
  | token _ rest => rest.Genuine
  | fault e rest => e.Genuine ∧ rest.Genuine
  | stuck e => e.Genuine
  | finished _ => True

theorem Lexeme.Genuine.branch {c : Prop} [Decidable c] {x y : Lexeme} (yes : x.Genuine) (no : y.Genuine) :
    (if c then x else y).Genuine := by
  split
  · exact yes
  · exact no

theorem lexeme_genuine (d : Dialect) (start : Nat) (c : Char) (rest : List Char) : (lexeme d start c rest).Genuine := by
  have string : (stringLexeme d start c rest).Genuine := by
    rw [stringLexeme]
    split
    · trivial
    · exact SyntaxCause.noConfusion
  have quoted (style : QuoteStyle) : (quotedIdentifierLexeme start style rest).Genuine := by
    rw [quotedIdentifierLexeme]
    split
    · trivial
    · exact SyntaxCause.noConfusion
  have marked : (variableLexeme rest).Genuine := .branch SyntaxCause.noConfusion trivial
  refine .branch string (.branch string (.branch (quoted _) (.branch (quoted _) (.branch (quoted _) ?_))))
  refine .branch trivial (.branch trivial (.branch marked ?_))
  cases symbol? c rest with
  | some _ => trivial
  | none => exact .branch SyntaxCause.noConfusion (.branch SyntaxCause.noConfusion SyntaxCause.noConfusion)

theorem TokenStream.scan_genuine (d : Dialect) (p : Place) (cs : List Char) : (scan d p cs).Genuine := by
  fun_induction scan d p cs with
  | case1 => exact ⟨nofun, trivial⟩
  | case2 => trivial
  | case3 p cs q c rest _ kind more after _ ih => exact ih
  | case4 p cs q c rest _ cause more found ih =>
    have genuine := lexeme_genuine d q.offset c rest
    rw [found] at genuine
    exact ⟨genuine, ih⟩
  | case5 p cs q c rest _ cause found =>
    have genuine := lexeme_genuine d q.offset c rest
    rw [found] at genuine
    exact genuine

/-! ## Tokens that are left -/

namespace WalkState

/-- The number of tokens that are left, the current one among them. -/
def left (s : WalkState) : Nat := s.cursor.remaining

/-- All faults ahead are genuine. -/
def Genuine (s : WalkState) : Prop := s.cursor.ahead.Genuine

end WalkState

/-- From a state, a walk ends with a result for which at least the given number of tokens has been passed, or with a genuine
error. -/
def Walk.Passes (least : α → Nat) (m : Walk α) (s : WalkState) : Prop :=
  s.Genuine → match m s with
    | .ok a t => t.Genuine ∧ t.left + least a ≤ s.left
    | .error e _ => e.Genuine

namespace Walk.Passes

variable {m n : Walk α} {f : α → Walk β} {s : WalkState} {least : β → Nat}

/-! ## Rules -/

theorem pure {b : β} (nothing : least b = 0) : Passes least (Pure.pure b) s :=
  fun genuine => ⟨genuine, by rw [nothing]; exact Nat.le_refl _⟩

/-- Fewer tokens are asked for. -/
theorem weaken {least least' : α → Nat} (passes : Passes least m s) (fewer : ∀ a, least' a ≤ least a) : Passes least' m s := by
  intro genuine
  have after := passes genuine
  cases run : m s with
  | ok a t =>
    rw [run] at after
    exact ⟨after.1, Nat.le_trans (Nat.add_le_add_left (fewer a) _) after.2⟩
  | error e t =>
    rw [run] at after
    exact after

/-- It is no matter whether a token is passed. -/
theorem anyhow {least : α → Nat} (passes : Passes least m s) : Passes (fun _ => 0) m s :=
  passes.weaken fun _ => Nat.zero_le _

theorem bind {passed : α → Nat} (first : Passes passed m s)
    (next : ∀ a t, Passes (fun b => least b - passed a) (f a) t) : Passes least (m >>= f) s := by
  intro genuine
  have before := first genuine
  simp only [Bind.bind, EStateM.bind]
  cases run : m s with
  | error e t =>
    rw [run] at before
    exact before
  | ok a t =>
    rw [run] at before
    have after := next a t before.1
    dsimp only
    cases rest : f a t with
    | error e u =>
      rw [rest] at after
      exact after
    | ok b u =>
      rw [rest] at after
      obtain ⟨genuine', further⟩ := after
      have passed := before.2
      dsimp only at further
      exact ⟨genuine', by omega⟩

theorem map {g : α → β} (passes : Passes (fun a => least (g a)) m s) : Passes least (g <$> m) s := by
  intro genuine
  have after := passes genuine
  simp only [Functor.map, EStateM.map]
  cases run : m s with
  | ok a t | error e t =>
    rw [run] at after
    exact after

theorem discard {k : Nat} (passes : Passes (fun _ => k) m s) : Passes (fun _ => k) (discard m) s := passes.map

/-- A walk that only looks at the state. -/
theorem look {a : α} (looks : m s = .ok a s) (next : Passes least (f a) s) : Passes least (m >>= f) s := by
  intro genuine
  simp only [Bind.bind, EStateM.bind, looks]
  exact next genuine

theorem looking {a : α} (looks : m s = .ok a s) : Passes (fun _ => 0) m s := by
  intro genuine
  rw [looks]
  exact ⟨genuine, Nat.le_refl _⟩

theorem branch {c : Prop} [Decidable c] {least : α → Nat} (yes : c → Passes least m s) (no : ¬ c → Passes least n s) :
    Passes least (if c then m else n) s := by
  split
  · next holds => exact yes holds
  · next fails => exact no fails

/-- A step that may be left out. -/
theorem perhaps {c : Prop} [Decidable c] {m : Walk Unit} {f : Unit → Walk β} (step : Passes (fun _ => 0) m s)
    (next : ∀ t, Passes least (f ()) t) : Passes least (if c then m >>= f else f ()) s :=
  branch (fun _ => step.bind fun _ t => next t) fun _ => next s

theorem record {g : Statement → Statement} : Passes (fun _ => 0) (Walk.record g) s := fun genuine => ⟨genuine, Nat.le_refl _⟩

theorem failExpected {what : Expectation} {least : α → Nat} : Passes least (Walk.failExpected what) s :=
  fun _ => SyntaxCause.noConfusion

/-! ## Steps -/

theorem advance (inside : s.cursor.isAtEnd = false) : Passes (fun _ => 1) Walk.advance s := by
  obtain ⟨⟨d, t, ahead, n⟩, statement⟩ := s
  intro genuine
  simp only [Walk.advance, Cursor.step, inside]
  have old : WalkState.left ⟨⟨d, t, ahead, n⟩, statement⟩ = ahead.size + 1 := by
    rw [WalkState.left, Cursor.remaining, inside]
    rfl
  cases ahead with
  | token u rest =>
    refine ⟨genuine, ?_⟩
    rw [old]
    simp only [WalkState.left, Cursor.remaining, TokenStream.size]
    split <;> omega
  | finished p => exact ⟨trivial, by rw [old]; exact Nat.le_refl _⟩
  | fault e rest => exact genuine.1
  | stuck e => exact genuine

/-- At the end of a text nothing is passed. -/
theorem step : Passes (fun _ => 0) Walk.advance s := by
  cases inside : s.cursor.isAtEnd with
  | false => exact (advance inside).anyhow
  | true =>
    intro genuine
    simp only [Walk.advance, Cursor.step, inside]
    exact ⟨genuine, Nat.le_refl _⟩

theorem peek : Passes (fun _ => 0) Walk.peek s := by
  obtain ⟨⟨d, t, ahead, n⟩, statement⟩ := s
  intro genuine
  simp only [Walk.peek, Cursor.peek]
  by_cases atEnd : Cursor.isAtEnd ⟨d, t, ahead, n⟩ = true
  · rw [if_pos atEnd]
    exact ⟨genuine, Nat.le_refl _⟩
  · rw [if_neg atEnd]
    cases ahead with
    | token u rest => exact ⟨genuine, Nat.le_refl _⟩
    | finished p => exact ⟨genuine, Nat.le_refl _⟩
    | fault e rest => exact genuine.1
    | stuck e => exact genuine

/-- A token shape that the end of a text lacks is not found there. -/
theorem isAtEnd_of_checkAny {ks : List TokenKind} (inside : ks.any TokenKind.endOfInput.sameShape = false)
    (found : s.cursor.checkAny ks = true) : s.cursor.isAtEnd = false := by
  refine decide_eq_false fun atEnd => ?_
  rw [Cursor.checkAny, show s.cursor.check = TokenKind.endOfInput.sameShape from funext fun k => congrArg (·.sameShape k) atEnd,
    inside] at found
  cases found

theorem isAtEnd_of_check {k : TokenKind} (inside : TokenKind.endOfInput.sameShape k = false)
    (found : s.cursor.check k = true) : s.cursor.isAtEnd = false := by
  have inAny : [k].any TokenKind.endOfInput.sameShape = false := by simpa using inside
  exact isAtEnd_of_checkAny inAny (by simpa [Cursor.checkAny] using found)

theorem eatAny {ks : List TokenKind} (inside : ks.any TokenKind.endOfInput.sameShape = false) :
    Passes (fun found => if found = true then 1 else 0) (Walk.eatAny ks) s := by
  refine look rfl (branch (fun found => ?_) fun _ => pure rfl)
  exact (advance (isAtEnd_of_checkAny inside found)).discard.bind fun _ _ => pure rfl

theorem eat {k : TokenKind} (inside : TokenKind.endOfInput.sameShape k = false) :
    Passes (fun found => if found = true then 1 else 0) (Walk.eat k) s := by
  refine look rfl (branch (fun found => ?_) fun _ => pure rfl)
  exact (advance (isAtEnd_of_check inside found)).discard.bind fun _ _ => pure rfl

theorem eat_stays {k : TokenKind} {t : WalkState} (run : Walk.eat k s = .ok false t) : t = s := by
  obtain ⟨found, u, looks, run⟩ := bind_eq_ok_iff.mp run
  cases looks
  split at run
  · obtain ⟨_, _, _, run⟩ := bind_eq_ok_iff.mp run
    cases (pure_eq_ok_iff.mp run).1
  · exact (pure_eq_ok_iff.mp run).2.symm

theorem eatAny_stays {ks : List TokenKind} {t : WalkState} (run : Walk.eatAny ks s = .ok false t) : t = s := by
  obtain ⟨found, u, looks, run⟩ := bind_eq_ok_iff.mp run
  cases looks
  split at run
  · obtain ⟨_, _, _, run⟩ := bind_eq_ok_iff.mp run
    cases (pure_eq_ok_iff.mp run).1
  · exact (pure_eq_ok_iff.mp run).2.symm

theorem expect {k : TokenKind} (inside : TokenKind.endOfInput.sameShape k = false) :
    Passes (fun _ => 1) (Walk.expect k) s :=
  look rfl (branch (fun found => advance (isAtEnd_of_check inside found)) fun _ => failExpected)

theorem expectAny {ks : List TokenKind} {what : Expectation}
    (inside : ks.any TokenKind.endOfInput.sameShape = false) : Passes (fun _ => 1) (Walk.expectAny ks what) s :=
  look rfl (branch (fun found => advance (isAtEnd_of_checkAny inside found)) fun _ => failExpected)

theorem identifier : Passes (fun _ => 1) Walk.identifier s := by
  refine look rfl (branch (fun isName => map (advance (decide_eq_false fun atEnd => ?_))) fun _ => failExpected)
  rw [show s.cursor.kind = .endOfInput from atEnd] at isName
  cases isName

/-! ## Names and values -/

theorem qualifiedName : Passes (fun _ => 1) Walk.qualifiedName s :=
  identifier.bind fun _ _ => (eat rfl).anyhow.bind fun _ _ => branch (fun _ => identifier.anyhow) fun _ => pure rfl

theorem tableName : Passes (fun _ => 1) Walk.tableName s := qualifiedName.bind fun _ _ => record.bind fun _ _ => pure rfl

theorem value? : Passes (fun _ => 0) Walk.value? s := by
  have passed {v : Option Operand} {s : WalkState} : Passes (fun _ => 0) (do Functor.discard Walk.advance; return v) s :=
    step.discard.bind fun _ _ => pure rfl
  refine look rfl ?_
  cases s.cursor.kind with
  | integer | float | string => exact passed
  | symbol sign =>
    cases sign with
    | question => exact look rfl passed
    | minus =>
      refine step.discard.bind fun _ t => look rfl ?_
      cases Walk.negated? t.cursor.kind with
      | some _ => exact passed
      | none => exact pure rfl
    | _ => exact pure rfl
  | _ => exact pure rfl

theorem bound : Passes (fun _ => 0) Walk.bound s := by
  refine look rfl ?_
  cases s.cursor.kind with
  | integer => exact branch (fun _ => step.discard.bind fun _ _ => pure rfl) fun _ => failExpected
  | symbol sign =>
    cases sign with
    | question => exact step.discard.bind fun _ _ => pure rfl
    | _ => exact failExpected
  | _ => exact failExpected

theorem limitClause (r : Bool) : Passes (fun _ => 0) (Walk.limitClause r) s := by
  have bounds (first : PlacedBound) {s : WalkState} : Passes (fun _ => 0) (Walk.limitBounds first) s := by
    refine (eat rfl).anyhow.bind fun _ _ => branch (fun _ => bound.bind fun _ _ => pure rfl) fun _ => ?_
    exact (eat rfl).anyhow.bind fun _ _ => branch (fun _ => bound.bind fun _ _ => pure rfl) fun _ => pure rfl
  refine (expect rfl).discard.anyhow.bind fun _ _ => bound.bind fun first _ => ?_
  exact (bounds first).bind fun _ _ => branch (fun _ => record) fun _ => pure rfl

theorem offsetFetchClause (r : Bool) : Passes (fun _ => 0) (Walk.offsetFetchClause r) s := by
  have ending (offset rowCount : Option PlacedBound) {s : WalkState} :
      Passes (fun _ => 0) (Walk.offsetFetchEnd r offset rowCount) s := by
    rw [Walk.offsetFetchEnd]
    exact perhaps failExpected fun _ => branch (fun _ => record) fun _ => pure rfl
  have fetch (offset : Option PlacedBound) {s : WalkState} : Passes (fun _ => 0) (Walk.fetchEnd r offset) s := by
    refine (eat rfl).anyhow.bind fun _ _ => branch (fun _ => ?_) fun _ => ending offset none
    refine (expectAny rfl).discard.anyhow.bind fun _ _ => bound.bind fun b _ => (expectAny rfl).discard.anyhow.bind fun _ _ => ?_
    exact (expect rfl).discard.anyhow.bind fun _ _ => ending offset (some b)
  refine (eat rfl).anyhow.bind fun _ _ => branch (fun _ => ?_) fun _ => fetch none
  exact bound.bind fun b _ => (eatAny rfl).anyhow.discard.bind fun _ _ => fetch (some b)

theorem pagination (r : Bool) : Passes (fun _ => 0) (Walk.pagination r) s := by
  refine look rfl (branch (fun _ => limitClause r) fun _ => look rfl (branch (fun _ => ?_) fun _ => pure rfl))
  exact look rfl (branch (fun _ => offsetFetchClause r) fun _ => pure rfl)

theorem topEnd (r : Bool) (rowCount : Option PlacedBound) : Passes (fun _ => 0) (Walk.topEnd r rowCount) s := by
  have word {s : WalkState} : Passes (fun _ => 0) (Walk.passWord "PERCENT") s :=
    look rfl (perhaps step.discard fun _ => pure rfl)
  have ties {s : WalkState} : Passes (fun _ => 0) Walk.passTies s := by
    refine look rfl (branch (fun _ => ?_) fun _ => pure rfl)
    exact peek.bind fun _ _ => branch (fun _ => step.discard.bind fun _ _ => step.discard) fun _ => pure rfl
  refine word.bind fun percent _ => ties.bind fun _ _ => branch (fun _ => ?_) fun _ => pure rfl
  cases rowCount with
  | some _ => exact record
  | none => exact pure rfl

/-! ## Around tables and conditions -/

theorem atLock : Passes (fun _ => 0) Walk.atLock s :=
  look rfl (branch (fun _ => peek.bind fun _ _ => pure rfl) fun _ => pure rfl)

/-- Looking for a locking clause moves nothing. -/
theorem atLock_stays {t : WalkState} {r : Bool} (run : Walk.atLock s = .ok r t) : t = s := by
  obtain ⟨_, _, ⟨⟩, run⟩ := bind_eq_ok_iff.mp run
  split at run
  · obtain ⟨_, u, ahead, run⟩ := bind_eq_ok_iff.mp run
    rw [← (pure_eq_ok_iff.mp run).2, (peek_eq_ok_iff.mp ahead).2]
  · exact (pure_eq_ok_iff.mp run).2.symm

theorem atJoin : Passes (fun _ => 0) Walk.atJoin s := by
  refine look rfl ?_
  cases s.cursor.kind with
  | keyword w =>
    exact branch (fun _ => pure rfl) fun _ => branch (fun _ => peek.bind fun _ _ => pure rfl) fun _ => pure rfl
  | _ => exact pure rfl

theorem alias? : Passes (fun _ => 0) Walk.alias? s := by
  refine (eat rfl).anyhow.bind fun _ _ => branch (fun _ => identifier.anyhow.bind fun _ _ => pure rfl) fun _ => ?_
  refine look rfl (branch (fun _ => ?_) fun _ => pure rfl)
  exact atLock.bind fun _ _ => branch (fun _ => pure rfl) fun _ => identifier.anyhow.bind fun _ _ => pure rfl

theorem atConditionEnd : Passes (fun _ => 0) Walk.atConditionEnd s :=
  look rfl (branch (fun _ => pure rfl) fun _ => atJoin.bind fun _ _ => branch (fun _ => pure rfl) fun _ => atLock)

theorem equality? (x : Column) : Passes (fun _ => 0) (Walk.equality? x) s := value?.bind fun _ _ => pure rfl

theorem between? (x : Column) : Passes (fun _ => 0) (Walk.between? x) s := by
  refine value?.bind fun lower _ => ?_
  cases lower with
  | none => exact pure rfl
  | some _ => exact (eat rfl).anyhow.bind fun _ _ => branch (fun _ => value?.bind fun _ _ => pure rfl) fun _ => pure rfl

theorem assignedValue (x : Column) : Passes (fun _ => 0) (Walk.assignedValue x) s := by
  refine value?.bind fun v _ => ?_
  cases v with
  | none => exact pure rfl
  | some _ => exact look rfl (branch (fun _ => record) fun _ => pure rfl)

end Walk.Passes

end SqlSharding.Sql
