import SqlSharding.Sql.Walk

/-!
# Cursors over token lists

The text ahead of a cursor without faults is a list of tokens before the end of the text. A walk that succeeds meets no
fault, so every cursor of a successful walk over a whole text is of this form, and its steps drop the tokens of the list
one by one.
-/

namespace SqlSharding.Sql

/-- The stream of some tokens before the end of a text. -/
def TokenStream.ofTokens (p : Place) : List Token → TokenStream
  | [] => .finished p
  | t :: ts => .token t (ofTokens p ts)

theorem TokenStream.toList?_ofTokens (p : Place) (ts : List Token) :
    (ofTokens p ts).toList? = .ok (ts ++ [Token.endAt p]) := by
  induction ts with
  | nil => rfl
  | cons t ts ih =>
    rw [ofTokens, toList?, ih]
    rfl

/-- Tokens other than the end of a text. -/
def Proper (ts : List Token) : Prop := ∀ t ∈ ts, t.kind ≠ .endOfInput

theorem Proper.tail {t : Token} {ts : List Token} (proper : Proper (t :: ts)) : Proper ts :=
  fun u member => proper u (List.mem_cons_of_mem _ member)

theorem Proper.head {t : Token} {ts : List Token} (proper : Proper (t :: ts)) : t.kind ≠ .endOfInput :=
  proper t List.mem_cons_self

theorem Proper.right {ts us : List Token} (proper : Proper (ts ++ us)) : Proper us :=
  fun u member => proper u (List.mem_append_right _ member)

theorem Proper.rest {ts before left : List Token} (proper : Proper ts) (whole : ts = before ++ left) : Proper left :=
  (whole ▸ proper : Proper (before ++ left)).right

namespace Cursor

/-- The cursor on the first of some tokens before the end of a text. -/
def along (d : Dialect) (p : Place) (n : Nat) : List Token → Cursor
  | [] => ⟨d, Token.endAt p, .finished p, n⟩
  | t :: ts => ⟨d, t, .ofTokens p ts, n⟩

variable {d : Dialect} {p : Place} {n : Nat} {t u : Token} {ts : List Token}

@[simp] theorem along_dialect : (along d p n ts).dialect = d := by cases ts <;> rfl
@[simp] theorem along_parameterIndex : (along d p n ts).parameterIndex = n := by cases ts <;> rfl
@[simp] theorem along_nil_kind : (along d p n []).kind = .endOfInput := rfl
@[simp] theorem along_cons_kind : (along d p n (t :: ts)).kind = t.kind := rfl
@[simp] theorem along_cons_current : (along d p n (t :: ts)).current = t := rfl

theorem size_ofTokens : (TokenStream.ofTokens p ts).size = ts.length := by
  induction ts with
  | nil => rfl
  | cons t ts ih => simp [TokenStream.ofTokens, TokenStream.size, ih]

theorem ofTokens_injective {ts us : List Token} (same : TokenStream.ofTokens p ts = .ofTokens p us) : ts = us := by
  induction ts generalizing us with
  | nil =>
    cases us with
    | nil => rfl
    | cons u us => cases same
  | cons t ts ih =>
    cases us with
    | nil => cases same
    | cons u us =>
      injection same with sameFirst sameRest
      rw [sameFirst, ih sameRest]

theorem along_injective {m : Nat} {ts us : List Token} (proper : Proper ts) (proper' : Proper us)
    (same : along d p n ts = along d p m us) : ts = us := by
  have sameCurrent := congrArg Cursor.current same
  have sameAhead := congrArg Cursor.ahead same
  cases ts with
  | nil =>
    cases us with
    | nil => rfl
    | cons u us => exact absurd (congrArg Token.kind sameCurrent.symm) proper'.head
  | cons t ts =>
    cases us with
    | nil => exact absurd (congrArg Token.kind sameCurrent) proper.head
    | cons u us => rw [show t = u from sameCurrent, ofTokens_injective sameAhead]

theorem along_isAtEnd (proper : Proper ts) : (along d p n ts).isAtEnd = ts.isEmpty := by
  cases ts with
  | nil => rfl
  | cons t ts => exact decide_eq_false proper.head

theorem along_remaining (proper : Proper ts) : (along d p n ts).remaining = ts.length := by
  rw [remaining, along_isAtEnd proper]
  cases ts with
  | nil => rfl
  | cons t ts => simp [along, size_ofTokens]

/-- The placeholders passed once a token is passed. -/
def countAfter (n : Nat) (k : TokenKind) : Nat := if k = .symbol .question then n + 1 else n

theorem along_step (proper : Proper (t :: ts)) :
    (along d p n (t :: ts)).step = (none, along d p (countAfter n t.kind) ts) := by
  have inside : (along d p n (t :: ts)).isAtEnd = false := along_isAtEnd proper
  rw [step, inside]
  cases ts <;> rfl

theorem along_step_nil : (along d p n []).step = (none, along d p n []) := rfl

theorem along_peek (proper : Proper (t :: u :: ts)) : (along d p n (t :: u :: ts)).peek = .ok u.kind := by
  have inside : (along d p n (t :: u :: ts)).isAtEnd = false := along_isAtEnd proper
  rw [peek, inside]
  rfl

theorem along_peek_last (proper : Proper [t]) : (along d p n [t]).peek = .ok .endOfInput := by
  have inside : (along d p n [t]).isAtEnd = false := along_isAtEnd proper
  rw [peek, inside]
  rfl

theorem along_peek_nil : (along d p n []).peek = .ok .endOfInput := rfl

end Cursor

/-! ## Runs of walks -/

namespace Walk

variable {α β : Type} {s u : WalkState} {b : β}

theorem bind_eq_ok_iff {m : Walk α} {f : α → Walk β} :
    (m >>= f) s = .ok b u ↔ ∃ a t, m s = .ok a t ∧ f a t = .ok b u := by
  cases run : m s with
  | error e t => simp [Bind.bind, EStateM.bind, run]
  | ok a t =>
    simp only [Bind.bind, EStateM.bind, run, EStateM.Result.ok.injEq]
    exact ⟨fun next => ⟨a, t, ⟨rfl, rfl⟩, next⟩, fun ⟨_, _, ⟨sameA, sameT⟩, next⟩ => sameA ▸ sameT ▸ next⟩

theorem pure_eq_ok_iff {a b : β} : (pure a : Walk β) s = .ok b u ↔ a = b ∧ s = u := by
  simp [Pure.pure, EStateM.pure]

theorem map_eq_ok_iff {m : Walk α} {f : α → β} : (f <$> m) s = .ok b u ↔ ∃ a, m s = .ok a u ∧ f a = b := by
  cases run : m s with
  | error e t => simp [Functor.map, EStateM.map, run]
  | ok a t =>
    simp only [Functor.map, EStateM.map, run, EStateM.Result.ok.injEq]
    exact ⟨fun ⟨same, moved⟩ => ⟨a, ⟨rfl, moved⟩, same⟩, fun ⟨_, ⟨eq, moved⟩, same⟩ => ⟨eq ▸ same, moved⟩⟩

/-- A walk that never succeeds. -/
def Fails (m : Walk α) : Prop := ∀ s a t, m s ≠ .ok a t

theorem failAt_fails {t : Token} {cause : SyntaxCause} : Fails (failAt t cause : Walk α) :=
  fun _ _ _ run => by cases run

theorem failExpected_fails {what : Expectation} : Fails (failExpected what : Walk α) :=
  fun _ _ _ run => by cases run

theorem failTooDeep_fails : Fails (failTooDeep : Walk α) :=
  fun _ _ _ run => by cases run

theorem advance_eq_ok_iff {t : Token} :
    advance s = .ok t u ↔ ∃ next, s.cursor.step = (none, next) ∧ t = s.cursor.current ∧ u = { s with cursor := next } := by
  rw [advance]
  rcases s.cursor.step with ⟨_ | e, next⟩
  · simp [eq_comm]
  · simp

/-- More rounds than a loop needs change nothing. -/
theorem iterate_mono {σ : Type} {f : σ → Walk (Bool × σ)} {n m : Nat} (more : n ≤ m) {x y : σ} {s t : WalkState}
    (run : iterate f n x s = .ok y t) : iterate f m x s = .ok y t := by
  induction n generalizing m x s with
  | zero => cases run
  | succ n ih =>
    obtain ⟨m, rfl⟩ : ∃ k, m = k + 1 := ⟨m - 1, by omega⟩
    obtain ⟨⟨goesOn, z⟩, u, first, rounds⟩ := bind_eq_ok_iff.mp run
    refine bind_eq_ok_iff.mpr ⟨(goesOn, z), u, first, ?_⟩
    cases goesOn with
    | true => exact ih (Nat.le_of_succ_le_succ more) rounds
    | false => exact rounds

/-- What holds at the beginning of a loop and after each round that goes on, with what the last round makes of it. -/
theorem repeatFrom_induction {σ : Type} {J K : σ → WalkState → Prop} {f : σ → Walk (Bool × σ)}
    (again : ∀ x s y t, J x s → f x s = .ok (true, y) t → J y t)
    (last : ∀ x s y t, J x s → f x s = .ok (false, y) t → K y t) {x y : σ} {s t : WalkState}
    (run : repeatFrom x f s = .ok y t) (holds : J x s) : K y t := by
  obtain ⟨_, _, ⟨⟩, rounds⟩ := bind_eq_ok_iff.mp run
  clear run
  generalize s.cursor.remaining + 1 = n at rounds
  induction n generalizing x s with
  | zero => cases rounds
  | succ n ih =>
    obtain ⟨⟨goesOn, z⟩, u, first, rounds⟩ := bind_eq_ok_iff.mp rounds
    cases goesOn with
    | true => exact ih (again x s z u holds first) rounds
    | false =>
      obtain ⟨rfl, rfl⟩ := pure_eq_ok_iff.mp rounds
      exact last x s z u holds first

/-- What each round keeps, the loop keeps. -/
theorem repeatFrom_invariant {σ : Type} {J : σ → WalkState → Prop} {f : σ → Walk (Bool × σ)}
    (round : ∀ x s r t, J x s → f x s = .ok r t → J r.2 t) {x y : σ} {s t : WalkState}
    (run : repeatFrom x f s = .ok y t) (holds : J x s) : J y t :=
  repeatFrom_induction (fun x s y t => round x s (true, y) t) (fun x s y t => round x s (false, y) t) run holds

end Walk

end SqlSharding.Sql
