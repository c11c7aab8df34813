import SqlSharding.Proofs.Invariants
import SqlSharding.Proofs.Layout
import SqlSharding.Proofs.Outcomes

/-!
# Runs over whole texts

A statement is read only from a text without faults: the walk would have met the first one. So a text that is a statement
is a list of tokens, and its statement is what a walk over that list leaves behind.
-/

namespace SqlSharding.Sql

variable {d : Dialect} {p : Place} {ts : List Token} {n : Nat}

/-- A cursor on some token of a text without faults, after some placeholders. -/
def Cursor.Within (d : Dialect) (p : Place) (ts : List Token) (c : Cursor) : Prop :=
  ∃ n rest, rest <:+ ts ∧ c = along d p n rest

theorem Cursor.within_step (proper : Proper ts) {c next : Cursor} (step : c.step = (none, next))
    (within : c.Within d p ts) : next.Within d p ts := by
  obtain ⟨n, rest, suffix, rfl⟩ := within
  cases rest with
  | nil =>
    rw [along_step_nil] at step
    cases step
    exact ⟨n, [], suffix, rfl⟩
  | cons t rest =>
    rw [along_step (fun u member => proper u (suffix.subset member))] at step
    cases step
    exact ⟨_, rest, (List.suffix_cons t rest).trans suffix, rfl⟩

/-- A cursor that has a fault ahead. -/
structure Cursor.Faulty (c : Cursor) : Prop where
  inside : c.kind ≠ .endOfInput
  proper : c.ahead.Proper
  faulty : ∀ p ts, c.ahead ≠ .ofTokens p ts

theorem Cursor.faulty_step {c next : Cursor} (step : c.step = (none, next)) (faulty : c.Faulty) : next.Faulty := by
  have notAtEnd : c.isAtEnd = false := decide_eq_false faulty.inside
  have proper := faulty.proper
  rw [Cursor.step, notAtEnd] at step
  cases ahead : c.ahead with
  | token t rest =>
    rw [ahead] at step proper
    cases step
    refine ⟨proper.1, proper.2, fun p ts same => faulty.faulty p (t :: ts) ?_⟩
    rw [ahead]
    exact congrArg (TokenStream.token t) same
  | finished p => exact absurd ahead (faulty.faulty p [])
  | fault e rest =>
    rw [ahead] at step
    cases step
  | stuck e =>
    rw [ahead] at step
    cases step

/-- A walk over a whole statement ends at the end of the text. -/
theorem Walk.wholeStatement_atEnd {kind : StatementKind} {s t : WalkState} {u : Unit}
    (run : wholeStatement kind s = .ok u t) : t.cursor.kind = .endOfInput := by
  obtain ⟨_, s₁, -, run⟩ := bind_eq_ok_iff.mp run
  obtain ⟨_, s₂, -, run⟩ := bind_eq_ok_iff.mp run
  obtain ⟨_, _, ⟨⟩, run⟩ := bind_eq_ok_iff.mp run
  cases atEnd : s₂.cursor.isAtEnd with
  | false =>
    rw [atEnd] at run
    cases run
  | true =>
    rw [atEnd] at run
    obtain ⟨-, rfl⟩ := pure_eq_ok_iff.mp run
    exact of_decide_eq_true atEnd

/-- The first cursor of a text that a walk reads as a whole statement. -/
theorem Cursor.ofText_eq_ok {sql : String} {c : Cursor} (first : ofText d sql = .ok c) {kind : StatementKind}
    {s : Statement} {t : WalkState} (run : Walk.wholeStatement kind ⟨c, s⟩ = .ok () t) :
    ∃ p ts, Reads d .start sql.toList ts p ∧ c = along d p 0 ts := by
  have proper := TokenStream.scan_proper d .start sql.toList
  rw [ofText, TokenStream.ofText] at first
  cases scanned : TokenStream.scan d .start sql.toList with
  | fault | stuck =>
    rw [scanned] at first
    cases first
  | finished p =>
    rw [scanned] at first
    cases first
    exact ⟨p, [], reads_of_scan scanned, rfl⟩
  | token t rest =>
    rw [scanned] at first proper
    cases first
    by_cases clean : ∃ p ts, rest = .ofTokens p ts
    · obtain ⟨p, ts, rfl⟩ := clean
      exact ⟨p, t :: ts, reads_of_scan scanned, rfl⟩
    · have faulty : Faulty ⟨d, t, rest, 0⟩ := ⟨proper.1, proper.2, fun p ts same => clean ⟨p, ts, same⟩⟩
      have still := Walk.wholeStatement_keeps (P := Faulty) (fun _ _ => faulty_step) kind _ _ _ run faulty
      exact absurd (Walk.wholeStatement_atEnd run) still.inside

theorem Cursor.ofText_of_reads {sql : String} (reads : Reads d .start sql.toList ts p) :
    ofText d sql = .ok (along d p 0 ts) := by
  rw [ofText, TokenStream.ofText, scan_of_reads reads]
  cases ts <;> rfl

/-- What reading a statement comes down to. -/
theorem parse_eq_ok_iff {sql : String} {stmt : Statement} : parse d sql = .ok stmt ↔
    ∃ kind p ts n s, Reads d .start sql.toList ts p ∧ StatementKind.ofFirst? (Cursor.along d p 0 ts).kind = some kind ∧
      Walk.wholeStatement kind ⟨.along d p 0 ts, .ofKind kind⟩ = .ok () ⟨.along d p n [], s⟩ ∧ stmt = s.finish n := by
  constructor
  · intro parsed
    obtain ⟨c, first, parsed⟩ := bind_eq_ok_iff.mp parsed
    cases begins : StatementKind.ofFirst? c.kind with
    | none =>
      rw [begins] at parsed
      cases parsed
    | some kind =>
      rw [begins] at parsed
      dsimp only at parsed
      split at parsed
      · next t run =>
        obtain ⟨p, ts, reads, rfl⟩ := Cursor.ofText_eq_ok first run
        obtain ⟨n, rest, suffix, same⟩ := Walk.wholeStatement_keeps (P := Cursor.Within d p ts)
          (fun _ _ => Cursor.within_step reads.proper) kind _ _ _ run ⟨0, ts, List.suffix_refl ts, rfl⟩
        have atEnd := Walk.wholeStatement_atEnd run
        obtain ⟨c, s⟩ := t
        obtain rfl : c = .along d p n rest := same
        cases rest with
        | nil => exact ⟨kind, p, ts, n, s, reads, begins, run, (pure_eq_ok_iff.mp parsed).symm⟩
        | cons u rest => exact absurd atEnd (reads.proper u (suffix.subset List.mem_cons_self))
      · cases parsed
  · rintro ⟨kind, p, ts, n, s, reads, begins, run, rfl⟩
    refine bind_eq_ok_iff.mpr ⟨_, Cursor.ofText_of_reads reads, ?_⟩
    rw [begins]
    dsimp only [EStateM.run]
    rw [run]
    rfl

/-! ## Statements before they are completed -/

/-- What a walk over a text records, with the number of placeholders. Unlike the completed statement it can be computed
in a proof, because nothing is sorted. -/
def draft? (d : Dialect) (sql : String) : Option (Statement × Nat) :=
  match Cursor.ofText d sql with
  | .error _ => none
  | .ok c =>
    match StatementKind.ofFirst? c.kind with
    | none => none
    | some kind =>
      match Walk.wholeStatement kind ⟨c, .ofKind kind⟩ with
      | .ok _ s => some (s.statement, s.cursor.parameterIndex)
      | .error .. => none

theorem parse_of_draft {sql : String} {s : Statement} {n : Nat} (drafted : draft? d sql = some (s, n)) :
    parse d sql = .ok (s.finish n) := by
  rw [draft?] at drafted
  cases first : Cursor.ofText d sql with
  | error => simp [first] at drafted
  | ok c =>
    cases begins : StatementKind.ofFirst? c.kind with
    | none => simp [first, begins] at drafted
    | some kind =>
      cases run : Walk.wholeStatement kind ⟨c, .ofKind kind⟩ with
      | error => simp [first, begins, run] at drafted
      | ok _ t =>
        simp only [first, begins, run, Option.some.injEq, Prod.mk.injEq] at drafted
        obtain ⟨rfl, rfl⟩ := drafted
        refine bind_eq_ok_iff.mpr ⟨c, first, ?_⟩
        rw [begins]
        dsimp only [EStateM.run]
        rw [run]
        rfl

end SqlSharding.Sql
