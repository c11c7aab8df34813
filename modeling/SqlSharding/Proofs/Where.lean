import SqlSharding.Proofs.Expressions
import SqlSharding.Proofs.Queries

/-!
# Reading a WHERE clause

A `WHERE` clause with a formula is read to the end of the formula. The conditions that are left are true whenever the
formula is.
-/

namespace SqlSharding.Sql

/-- Whether a condition ends before what a view shows. -/
def View.Ended (v : View) : Prop := (v.kind.endsEverything || v.kind.endsCondition) = true

theorem TokenKind.endsCondition_of_isOperand {k : TokenKind} (isOperand : k.isOperand = true) : k.endsCondition = false := by
  cases k with
  | keyword w =>
    obtain rfl : w = .like := of_decide_eq_true isOperand
    rfl
  | _ => rfl

namespace Walk.Reaches

variable {d : Dialect} {p : Place} {text : List Token} (proper : Proper text) {n : Nat} {rest : List TokenKind}
  {cs : Conditions}

include proper

/-! ## Expressions -/

/-- An expression goes on over values and comparisons to the end of the condition. -/
theorem expressionWithin (depth : Nat) (ks : List TokenKind) (operands : ∀ k ∈ ks, k.isOperand = true)
    (ended : (View.mk n rest cs).Ended) :
    Reaches d p text (Walk.expressionWithin (depth + 1) TokenKind.endsCondition) ⟨n, ks ++ rest, cs⟩ (· = ())
      ⟨ks.foldl Cursor.countAfter n, rest, cs⟩ := by
  have goOn : ∀ x ∈ ks.map Piece.token, x.GoesOn TokenKind.endsCondition := by
    intro x member
    obtain ⟨k, inKinds, rfl⟩ := List.mem_map.mp member
    have isOperand := operands k inKinds
    exact ⟨TokenKind.isPassed_of_isOperand isOperand, TokenKind.endsCondition_of_isOperand isOperand⟩
  have leaves : (firstKind rest).LeavesColumn := by
    constructor <;> intro same <;> simp [View.Ended, View.kind, show rest.head?.getD .endOfInput = _ from same,
      TokenKind.endsEverything, TokenKind.endsCondition, TokenKind.endsClause] at ended
  have passed := expressionPieces (d := d) (p := p) proper depth (ks.map Piece.token) goOn ended leaves n cs
  rwa [Piece.flatMap_token] at passed

/-- Nothing is left of a condition that has ended. -/
theorem expression_ended (depth : Nat) {v : View} (ended : v.Ended) :
    Reaches d p text (Walk.expressionWithin (depth + 1) TokenKind.endsCondition) v (· = ()) v :=
  expressionWithin proper depth [] nofun ended

omit proper in
theorem atConditionEnd {v : View} (ended : v.Ended) : Reaches d p text Walk.atConditionEnd v (· = true) v :=
  kind.seq (.yes ended (.pure rfl))

/-! ## Atoms -/

/-- The values of a list up to its closing parenthesis. -/
theorem listRounds (depth : Nat) (v : Literal) (others : List Literal) (acc : List Operand) (fuel : Nat)
    (enough : others.length < fuel) :
    Reaches d p text (iterate (fun values? => do
        let value? ← value?
        let isPlain := value?.isSome && (← Walk.checkAny [.symbol .comma, .symbol .rightParen])
        if !isPlain then Walk.expressionWithin depth TokenKind.isComma
        let values? := if isPlain then values?.bind fun values => value?.map fun v => values ++ [v] else none
        return (← Walk.eat (.symbol .comma), values?)) fuel (some acc))
      ⟨n, v.kinds ++ ((others.flatMap fun w => .symbol .comma :: w.kinds) ++ .symbol .rightParen :: rest), cs⟩
      (· = some (acc ++ Literal.operands n (v :: others)))
      ⟨n + ((v :: others).map (·.placeholders)).sum, .symbol .rightParen :: rest, cs⟩ := by
  induction others generalizing n v acc fuel with
  | nil =>
    obtain ⟨fuel, rfl⟩ : ∃ k, fuel = k + 1 := ⟨fuel - 1, by simp at enough; omega⟩
    refine seq (a := (false, some (acc ++ [v.operand n]))) (w := ⟨n + v.placeholders, .symbol .rightParen :: rest, cs⟩) ?_ ?_
    · refine (value proper v).seq ((checkAny _).seq (.no Bool.false_ne_true ?_))
      exact (eat_not rfl).seq (.pure rfl)
    · exact .pure rfl
  | cons w others ih =>
    obtain ⟨fuel, rfl⟩ : ∃ k, fuel = k + 1 := ⟨fuel - 1, by simp at enough; omega⟩
    simp only [List.flatMap_cons, List.cons_append, List.append_assoc]
    refine seq (a := (true, some (acc ++ [v.operand n]))) (w := ⟨n + v.placeholders,
      w.kinds ++ ((others.flatMap fun w => .symbol .comma :: w.kinds) ++ .symbol .rightParen :: rest), cs⟩) ?_ (.yes rfl ?_)
    · refine (value proper v).seq ((checkAny _).seq (.no Bool.false_ne_true ?_))
      exact (eat proper rfl).seq (.pure rfl)
    · have shorter : others.length < fuel := by simpa using enough
      have rounds := ih (n := n + v.placeholders) w (acc ++ [v.operand n]) fuel shorter
      rw [List.append_assoc] at rounds
      rw [List.map_cons, List.sum_cons, ← Nat.add_assoc]
      exact rounds

/-- The condition after `IN`. -/
theorem membershipWithin (depth : Nat) (column : Column) (v : Literal) (others : List Literal) :
    Reaches d p text (Walk.membershipWithin (depth + 1) column)
      ⟨n, .symbol .leftParen :: (v.kinds ++ ((others.flatMap fun w => .symbol .comma :: w.kinds) ++ .symbol .rightParen :: rest)), cs⟩
      (· = some ⟨column, .isIn, Literal.operands n (v :: others)⟩)
      ⟨n + ((v :: others).map (·.placeholders)).sum, rest, cs⟩ := by
  have noQuery : (v.kinds ++ ((others.flatMap fun w => .symbol .comma :: w.kinds) ++ .symbol .rightParen :: rest)).head?.getD
      .endOfInput ≠ .keyword .select := by
    cases v with
    | integer negative | float negative => cases negative <;> exact nofun
    | _ => exact nofun
  refine (check _).seq (.no Bool.false_ne_true ((peek proper).seq (.no noQuery ((advance proper).discarded.seq ?_))))
  refine (repeatFrom proper fun fuel long => listRounds proper depth v others [] fuel ?_).seq ?_
  · have : others.length ≤ (others.flatMap fun w => .symbol .comma :: w.kinds).length := by
      clear long noQuery
      induction others with
      | nil => exact Nat.le_refl _
      | cons w others ih =>
        simp only [List.flatMap_cons, List.length_append, List.length_cons]
        omega
    simp only [List.length_append] at long
    omega
  · exact (expect proper rfl).discarded.seq (.pure rfl)

/-- The condition that begins with a column, once it has ended. -/
theorem conditionEnd (depth : Nat) (c : Condition) {v : View} (ended : v.Ended) :
    Reaches d p text (Walk.conditionEnd (depth + 1) (some c)) v (· = ()) { v with conditions := v.conditions.add c } := by
  refine (atConditionEnd ended).seq (.yes rfl ?_)
  refine (record (v.conditions.add c) fun s same => ?_).seq (expression_ended proper depth ended)
  rw [Statement.addCondition, same]

/-- A condition that begins with a column. -/
theorem named {depth : Nat} {c : WrittenColumn} {k : TokenKind} {ks : List TokenKind} {w : View} (noDot : k ≠ .symbol .dot)
    (next : Reaches d p text (Walk.comparison depth c.column) ⟨n, k :: ks, cs⟩ (· = ()) w) :
    Reaches d p text (Walk.conditionWithin (depth + 1)) ⟨n, c.kinds ++ k :: ks, cs⟩ (· = ()) w := by
  rw [Walk.conditionWithin]
  have begins : (View.mk n (c.kinds ++ k :: ks) cs).kind = c.first.kind := rfl
  refine kind.seq ?_
  rw [begins]
  obtain ⟨notNot, notParen, isName⟩ : c.first.kind ≠ .keyword .not ∧ c.first.kind ≠ .symbol .leftParen ∧
      c.first.kind.isIdentifier = true := by
    obtain ⟨⟨name, quote⟩, others⟩ := c
    cases quote <;> exact ⟨TokenKind.noConfusion, TokenKind.noConfusion, rfl⟩
  have passes : Reaches d p text Walk.column ⟨n, c.kinds ++ k :: ks, cs⟩ (· = some c.column) ⟨n, k :: ks, cs⟩ :=
    column proper c noDot
  exact .no notNot (.no notParen (.yes isName (passes.seq next)))

/-- What an atom makes of the conditions. -/
theorem atom (depth : Nat) (a : Atom) (ended : (View.mk n rest cs).Ended) :
    Reaches d p text (conditionWithin (depth + 2)) ⟨n, a.kinds ++ rest, cs⟩ (· = ())
      ⟨n + a.placeholders, rest, (Formula.atom a).keep n cs⟩ := by
  cases a with
  | equal c v =>
    rw [Atom.kinds, List.append_assoc]
    refine named proper (k := .symbol .eq) nofun ((eatAny proper rfl).seq (.yes rfl ?_))
    let c' : Condition := ⟨c.column, .equal, [v.operand n]⟩
    refine seq (a := some c') (w := ⟨n + v.placeholders, rest, cs⟩) ?_ ?_
    · refine (value proper v).map fun _ same => ?_
      rw [same]
      rfl
    · exact conditionEnd proper depth c' ended
  | isIn c v others =>
    rw [show (Atom.isIn c v others).kinds ++ rest = c.kinds ++ .keyword .in :: .symbol .leftParen :: (v.kinds ++
      ((others.flatMap fun w => .symbol .comma :: w.kinds) ++ .symbol .rightParen :: rest)) by simp [Atom.kinds]]
    refine named proper (k := .keyword .in) nofun ((eatAny_not rfl).seq (.no Bool.false_ne_true ?_))
    refine (eat proper rfl).seq (.yes rfl ((membershipWithin proper depth c.column v others).seq ?_))
    exact conditionEnd proper depth ⟨c.column, .isIn, Literal.operands n (v :: others)⟩ ended
  | between c lower upper =>
    rw [show (Atom.between c lower upper).kinds ++ rest = c.kinds ++ .keyword .between :: (lower.kinds ++
      .keyword .and :: (upper.kinds ++ rest)) by simp [Atom.kinds]]
    refine named proper (k := .keyword .between) nofun ((eatAny_not rfl).seq (.no Bool.false_ne_true ?_))
    refine (eat_not rfl).seq (.no Bool.false_ne_true ((eat proper rfl).seq (.yes rfl ?_)))
    have total : n + (Atom.between c lower upper).placeholders = n + lower.placeholders + upper.placeholders := by
      simp [Atom.placeholders, Atom.values, Nat.add_assoc]
    rw [total]
    let c' : Condition := ⟨c.column, .between, Literal.operands n [lower, upper]⟩
    refine seq (a := some c') (w := ⟨n + lower.placeholders + upper.placeholders, rest, cs⟩) ?_ ?_
    · refine (value proper lower).seq ((eat proper rfl).seq (.yes rfl ?_))
      refine (value proper upper).map fun _ same => ?_
      rw [same]
      rfl
    · exact conditionEnd proper depth c' ended
  | compared c op v =>
    rw [Atom.kinds, List.append_assoc]
    have operands : ∀ k ∈ op.kind :: v.kinds, k.isOperand = true := by
      intro k member
      rcases List.mem_cons.mp member with rfl | inValue
      · cases op <;> rfl
      · exact Literal.isOperand_of_mem inValue
    have passes := @expressionWithin d p text proper n rest cs depth (op.kind :: v.kinds) operands ended
    have counts : (op.kind :: v.kinds).foldl Cursor.countAfter n = n + v.placeholders := by
      rw [List.foldl_cons, show Cursor.countAfter n op.kind = n by cases op <;> rfl, Literal.foldl_countAfter]
    rw [counts] at passes
    refine named proper (k := op.kind) (by cases op <;> exact nofun) ?_
    refine (eatAny_not (by cases op <;> rfl)).seq (.no Bool.false_ne_true ?_)
    refine (eat_not (by cases op <;> rfl)).seq (.no Bool.false_ne_true ?_)
    exact (eat_not (by cases op <;> rfl)).seq (.no Bool.false_ne_true passes)

end Walk.Reaches

/-! ## Formulas -/

namespace Formula

/-- Whether a formula is written as one condition. -/
def IsSingle : Precedence → Formula → Prop
  | _, atom _ => True
  | _, group _ => True
  | _, not _ => True
  | level, and _ _ => level = .negated
  | level, or _ _ => level ≠ .disjunct

/-- The number of conditions that a formula is written as. -/
def rounds : Precedence → Formula → Nat
  | level, and e f => if level = .negated then 1 else e.rounds .conjunct + f.rounds .conjunct
  | level, or e f => if level = .disjunct then e.rounds .disjunct + f.rounds .disjunct else 1
  | _, _ => 1

theorem rounds_le (e : Formula) (level : Precedence) : e.rounds level ≤ (e.kinds level).length := by
  induction e generalizing level with
  | atom a => cases a <;> simp [rounds, kinds, Atom.kinds, WrittenColumn.kinds]
  | group e ih => simp [rounds, kinds, wrap]
  | not e ih => simp [rounds, kinds]
  | and e f ihe ihf =>
    have := ihe .conjunct
    have := ihf .conjunct
    cases level <;> simp [rounds, kinds, wrap]
    all_goals omega
  | or e f ihe ihf =>
    have := ihe .disjunct
    have := ihf .disjunct
    cases level <;> simp [rounds, kinds, wrap]
    omega

/-- No formula begins with a query. -/
theorem head_kinds_ne (e : Formula) (level : Precedence) (rest : List TokenKind) :
    (e.kinds level ++ rest).head?.getD .endOfInput ≠ .keyword .select := by
  induction e generalizing level rest with
  | atom a =>
    have name (x : WrittenName) : x.kind ≠ .keyword .select := by
      obtain ⟨text, quote⟩ := x
      cases quote <;> exact nofun
    cases a <;> exact name _
  | group e ih => exact nofun
  | not e ih => exact nofun
  | and e f ihe ihf =>
    cases level with
    | negated => exact nofun
    | _ =>
      have := ihe .conjunct (.keyword .and :: f.kinds .conjunct ++ rest)
      simpa [kinds, wrap] using this
  | or e f ihe ihf =>
    cases level with
    | disjunct =>
      have := ihe .disjunct (.keyword .or :: f.kinds .disjunct ++ rest)
      simpa [kinds, wrap] using this
    | _ => exact nofun

end Formula

/-- Passes a condition, and tells whether another one follows. -/
def Walk.conditionRound (depth : Nat) : Walk Bool := do
  conditionWithin depth
  if ← eat (.keyword .and) then return true
  else if ← eat (.keyword .or) then
    record fun s => { s with conditions := s.conditions.markUnusable }
    return true
  else return false

variable {d : Dialect} {p : Place} {text : List Token}

/-- Passes conditions in a number of rounds. -/
def Walk.conditionRounds (depth fuel : Nat) : Walk Unit := iterate (fun _ => (·, ()) <$> conditionRound depth) fuel ()

/-- Where the walk goes on from a condition that has ended, with more rounds to come. -/
def GoesOn (d : Dialect) (p : Place) (text : List Token) (depth fuel : Nat) (v w : View) : Prop :=
  ∀ first, Walk.Reaches d p text (Walk.conditionWithin depth) first (· = ()) v →
    Walk.Reaches d p text (Walk.conditionRounds depth (fuel + 1)) first (· = ()) w

namespace GoesOn

variable {depth fuel n : Nat} {ks : List TokenKind} {cs : Conditions} {v w : View}

theorem ends (noAnd : v.kind ≠ .keyword .and) (noOr : v.kind ≠ .keyword .or) : GoesOn d p text depth fuel v v := by
  intro first reaches
  refine .seq (a := (false, ())) (w := v) ?_ (.pure rfl)
  refine .map (Q := (· = false)) (reaches.seq ?_) fun _ same => same ▸ rfl
  have differs {word : Keyword} (other : v.kind ≠ .keyword word) : v.kind.sameShape (.keyword word) = false :=
    Bool.eq_false_iff.mpr fun same => other (TokenKind.sameShape_keyword.mp same)
  refine (Walk.Reaches.eat_not (differs noAnd)).seq (.no Bool.false_ne_true ?_)
  exact (Walk.Reaches.eat_not (differs noOr)).seq (.no Bool.false_ne_true (.pure rfl))

variable (proper : Proper text)

include proper

theorem and (rest : Walk.Reaches d p text (Walk.conditionRounds depth fuel) ⟨n, ks, cs⟩ (· = ()) w) :
    GoesOn d p text depth fuel ⟨n, .keyword .and :: ks, cs⟩ w := by
  intro first reaches
  refine .seq (a := (true, ())) (w := ⟨n, ks, cs⟩) ?_ (.yes rfl rest)
  refine .map (Q := (· = true)) (reaches.seq ?_) fun _ same => same ▸ rfl
  exact (Walk.Reaches.eat proper rfl).seq (.yes rfl (.pure rfl))

theorem or (rest : Walk.Reaches d p text (Walk.conditionRounds depth fuel) ⟨n, ks, cs.markUnusable⟩ (· = ()) w) :
    GoesOn d p text depth fuel ⟨n, .keyword .or :: ks, cs⟩ w := by
  intro first reaches
  refine .seq (a := (true, ())) (w := ⟨n, ks, cs.markUnusable⟩) ?_ (.yes rfl rest)
  refine .map (Q := (· = true)) (reaches.seq ?_) fun _ same => same ▸ rfl
  refine (Walk.Reaches.eat_not rfl).seq (.no Bool.false_ne_true ((Walk.Reaches.eat proper rfl).seq (.yes rfl ?_)))
  exact (Walk.Reaches.record cs.markUnusable fun s same => by rw [same]).seq (.pure rfl)

end GoesOn

/-- A formula that is written as one condition is read as one. -/
def Formula.IsCondition (d : Dialect) (p : Place) (text : List Token) (level : Precedence) (e : Formula) : Prop :=
  ∀ depth n rest cs, 2 * (e.kinds level).length ≤ depth → (View.mk n rest cs).Ended →
    Walk.Reaches d p text (Walk.conditionWithin depth) ⟨n, e.kinds level ++ rest, cs⟩ (· = ())
      ⟨n + e.placeholders, rest, e.keep n cs⟩

/-- A formula is read in as many rounds as it has conditions. -/
def Formula.IsRounds (d : Dialect) (p : Place) (text : List Token) (level : Precedence) (e : Formula) : Prop :=
  ∀ depth n rest cs fuel w, 2 * (e.kinds level).length ≤ depth → (View.mk n rest cs).Ended →
    GoesOn d p text depth fuel ⟨n + e.placeholders, rest, e.keep n cs⟩ w →
    Walk.Reaches d p text (Walk.conditionRounds depth (e.rounds level + fuel)) ⟨n, e.kinds level ++ rest, cs⟩ (· = ()) w

namespace Formula

variable {e f : Formula} {level : Precedence}

theorem IsCondition.isRounds (condition : e.IsCondition d p text level) (single : e.rounds level = 1) :
    e.IsRounds d p text level := by
  intro depth n rest cs fuel w deep ended goesOn
  rw [single, Nat.add_comm]
  exact goesOn _ (condition depth n rest cs deep ended)

variable (proper : Proper text)

include proper

/-- All conditions of a formula up to what follows it. -/
theorem IsRounds.conditionsWithin (isRounds : e.IsRounds d p text level) {depth n : Nat} {rest : List TokenKind}
    {cs : Conditions} (deep : 2 * (e.kinds level).length < depth) {k : TokenKind}
    (first : (View.mk n rest cs).kind = k) (ended : (k.endsEverything || k.endsCondition) = true)
    (noAnd : k ≠ .keyword .and) (noOr : k ≠ .keyword .or) :
    Walk.Reaches d p text (Walk.conditionsWithin depth) ⟨n, e.kinds level ++ rest, cs⟩ (· = ())
      ⟨n + e.placeholders, rest, e.keep n cs⟩ := by
  subst first
  obtain ⟨depth, rfl⟩ : ∃ k, depth = k + 1 := ⟨depth - 1, by omega⟩
  rw [Walk.conditionsWithin]
  refine .repeatFrom proper fun fuel long => ?_
  have enough : e.rounds level ≤ fuel := by
    have := e.rounds_le level
    simp only [List.length_append] at long
    omega
  have goesOn : GoesOn d p text depth (fuel - e.rounds level) ⟨n + e.placeholders, rest, e.keep n cs⟩
      ⟨n + e.placeholders, rest, e.keep n cs⟩ := .ends noAnd noOr
  have reaches := isRounds depth n rest cs _ _ (by omega) ended goesOn
  rw [Nat.add_sub_cancel' enough] at reaches
  exact reaches

/-- A formula in parentheses. -/
theorem IsRounds.wrapped (isRounds : e.IsRounds d p text level) {depth n : Nat} {rest : List TokenKind} {cs : Conditions}
    (deep : 2 * ((e.kinds level).length + 2) ≤ depth) (ended : (View.mk n rest cs).Ended) :
    Walk.Reaches d p text (Walk.conditionWithin depth) ⟨n, wrap true (e.kinds level) ++ rest, cs⟩ (· = ())
      ⟨n + e.placeholders, rest, e.keep n cs⟩ := by
  obtain ⟨depth, rfl⟩ : ∃ k, depth = k + 2 := ⟨depth - 2, by omega⟩
  rw [wrap, if_pos rfl, List.append_assoc, List.cons_append, Walk.conditionWithin]
  refine Walk.Reaches.kind.seq (.no TokenKind.noConfusion (.yes rfl ((Walk.Reaches.peek proper).seq (.no (head_kinds_ne e level _) ?_))))
  refine (Walk.Reaches.advance proper).discarded.seq ?_
  refine (isRounds.conditionsWithin proper (k := .symbol .rightParen) (by omega) rfl rfl TokenKind.noConfusion TokenKind.noConfusion).seq ?_
  exact (Walk.Reaches.expect proper rfl).discarded.seq (Walk.Reaches.expression_ended proper depth ended)

/-- However a formula is written, all of it is read. -/
theorem isRead (e : Formula) :
    (∀ level, e.IsSingle level → e.IsCondition d p text level) ∧ ∀ level, e.IsRounds d p text level := by
  induction e with
  | atom a =>
    have condition (level : Precedence) : (atom a).IsCondition d p text level := by
      intro depth n rest cs deep ended
      have nonempty : 1 ≤ ((atom a).kinds level).length := (atom a).rounds_le level
      obtain ⟨depth, rfl⟩ : ∃ k, depth = k + 2 := ⟨depth - 2, by omega⟩
      exact Walk.Reaches.atom proper depth a ended
    exact ⟨fun level _ => condition level, fun level => (condition level).isRounds rfl⟩
  | group e ih =>
    have condition (level : Precedence) : (group e).IsCondition d p text level := by
      intro depth n rest cs deep ended
      refine (ih.2 .disjunct).wrapped proper ?_ ended
      simp [kinds, wrap] at deep
      omega
    exact ⟨fun level _ => condition level, fun level => (condition level).isRounds rfl⟩
  | not e ih =>
    have condition (level : Precedence) : (not e).IsCondition d p text level := by
      intro depth n rest cs deep ended
      rw [kinds, List.length_cons] at deep
      obtain ⟨depth, rfl⟩ : ∃ k, depth = k + 1 := ⟨depth - 1, by omega⟩
      rw [kinds, List.cons_append, Walk.conditionWithin]
      have single : e.IsSingle .negated := by cases e <;> simp [IsSingle]
      have inner := ih.1 .negated single depth n rest cs (by omega) ended
      refine Walk.Reaches.kind.seq (.yes rfl (Walk.Reaches.statement.bind fun st before => ?_))
      refine (Walk.Reaches.advance proper).discarded.seq (inner.seq ?_)
      exact .record _ fun _ _ => before
    exact ⟨fun level _ => condition level, fun level => (condition level).isRounds rfl⟩
  | and e f ihe ihf =>
    have bare : (and e f).IsRounds d p text .conjunct := by
      intro depth n rest cs fuel w deep ended goesOn
      have written : (and e f).kinds .conjunct = e.kinds .conjunct ++ .keyword .and :: f.kinds .conjunct := rfl
      rw [written, List.length_append, List.length_cons] at deep
      rw [written, List.append_assoc, List.cons_append]
      rw [placeholders, ← Nat.add_assoc, keep] at goesOn
      have second := ihf.2 .conjunct depth (n + e.placeholders) rest (e.keep n cs) fuel w (by omega) ended goesOn
      have first := ihe.2 .conjunct depth n (.keyword .and :: (f.kinds .conjunct ++ rest)) cs _ w (by omega) rfl
        (.and proper second)
      rwa [← Nat.add_assoc] at first
    have wrapped : (and e f).IsCondition d p text .negated := by
      intro depth n rest cs deep ended
      refine bare.wrapped proper ?_ ended
      have written : (and e f).kinds .negated = wrap true ((and e f).kinds .conjunct) := rfl
      simp [written, wrap] at deep
      omega
    refine ⟨fun level single => ?_, fun level => ?_⟩
    · obtain rfl : level = .negated := single
      exact wrapped
    · cases level with
      | negated => exact wrapped.isRounds rfl
      | conjunct | disjunct => exact bare
  | or e f ihe ihf =>
    have bare : (or e f).IsRounds d p text .disjunct := by
      intro depth n rest cs fuel w deep ended goesOn
      have written : (or e f).kinds .disjunct = e.kinds .disjunct ++ .keyword .or :: f.kinds .disjunct := rfl
      rw [written, List.length_append, List.length_cons] at deep
      rw [written, List.append_assoc, List.cons_append]
      rw [placeholders, ← Nat.add_assoc, keep] at goesOn
      have second :=
        ihf.2 .disjunct depth (n + e.placeholders) rest (e.keep n cs).markUnusable fuel w (by omega) ended goesOn
      have first := ihe.2 .disjunct depth n (.keyword .or :: (f.kinds .disjunct ++ rest)) cs _ w (by omega) rfl
        (.or proper second)
      rwa [← Nat.add_assoc] at first
    have wrapped {level : Precedence} (written : (or e f).kinds level = wrap true ((or e f).kinds .disjunct)) :
        (or e f).IsCondition d p text level := by
      intro depth n rest cs deep ended
      rw [written] at deep ⊢
      refine bare.wrapped proper ?_ ended
      simp [wrap] at deep
      omega
    refine ⟨fun level single => ?_, fun level => ?_⟩
    · cases level with
      | disjunct => exact absurd rfl single
      | conjunct | negated => exact wrapped rfl
    · cases level with
      | disjunct => exact bare
      | conjunct | negated => exact (wrapped rfl).isRounds rfl

end Formula

/-! ## The clause -/

/-- A clause with a formula is passed up to its end. -/
theorem Formula.whereClause (proper : Proper text) (e : Formula) {n : Nat} {rest : List TokenKind} {cs : Conditions}
    (ends : ((View.mk n rest cs).kind.endsEverything || (View.mk n rest cs).kind.endsClause) = true) :
    Walk.Reaches d p text Walk.whereClause ⟨n, .keyword .where :: (e.kinds .disjunct ++ rest), cs⟩ (· = ())
      ⟨n + e.placeholders, rest, e.keep n cs⟩ := by
  refine (Walk.Reaches.eat proper rfl).seq (.yes rfl ((Walk.Reaches.depth proper).bind fun depth deep => ?_))
  have noWord {word : Keyword} (goesOn : (TokenKind.keyword word).endsClause = false) :
      (View.mk n rest cs).kind ≠ .keyword word := by
    intro same
    rw [same, goesOn] at ends
    cases ends
  refine ((e.isRead proper).2 .disjunct).conditionsWithin proper ?_ rfl ?_ (noWord rfl) (noWord rfl)
  · simp only [List.length_append] at deep
    omega
  · rw [TokenKind.endsCondition]
    simp only [Bool.or_eq_true] at ends ⊢
    rcases ends with ends | ends
    · exact .inl ends
    · exact .inr (.inr ends)

/-- Every condition that a `WHERE` clause leaves is true when the formula of the clause is, and none of them is missing when
the formula has neither `NOT` nor `OR`. -/
theorem whereClause_sound (d : Dialect) (p : Place) (n : Nat) (clause later : List Token) (s : Statement) (e : Formula)
    (proper : Proper (clause ++ later)) (written : clause.map (·.kind) = .keyword .where :: e.kinds .disjunct)
    (ends : ((Cursor.along d p n later).kind.endsEverything || (Cursor.along d p n later).kind.endsClause) = true)
    (fresh : s.conditions = .empty) :
    ∃ u, Walk.whereClause ⟨.along d p n (clause ++ later), s⟩ = .ok () u ∧
      u.cursor = .along d p (n + e.placeholders) later ∧
      (∀ truth : Predicate → Prop, e.Holds truth n → ∀ c ∈ u.statement.conditions.entries, truth (.condition c)) ∧
      (e.IsConjunction → u.statement.conditions = ⟨e.conditions n, true⟩) := by
  have ends : ((View.mk n (later.map (·.kind)) .empty).kind.endsEverything ||
      (View.mk n (later.map (·.kind)) .empty).kind.endsClause) = true := by
    cases later <;> exact ends
  have shows : WalkState.Shows d p (clause ++ later)
      ⟨n, .keyword .where :: (e.kinds .disjunct ++ later.map (·.kind)), .empty⟩ ⟨.along d p n (clause ++ later), s⟩ :=
    ⟨clause ++ later, List.suffix_refl _, rfl, by simp [written], fresh⟩
  obtain ⟨_, u, run, -, ts, suffix, atCursor, kinds, conditions⟩ := e.whereClause proper ends _ shows
  have sameLength : ts.length = later.length := by
    have := congrArg List.length kinds
    simpa using this
  obtain rfl : ts = later :=
    (List.suffix_of_suffix_length_le suffix (List.suffix_append clause later) (Nat.le_of_eq sameLength)).eq_of_length sameLength
  refine ⟨u, run, atCursor, fun truth holds => ?_, fun isConjunction => ?_⟩
  · rw [conditions]
    exact Formula.keep_sound holds nofun
  · rw [conditions]
    exact Formula.keep_conjunction isConjunction n []

/-- The tokens of `WHERE a = ? AND NOT b = ?`. -/
def negatedClause : List Token :=
  [⟨.keyword .where, ⟨0, 5⟩, 1, 1⟩, ⟨.identifier "a", ⟨6, 7⟩, 1, 7⟩, ⟨.symbol .eq, ⟨8, 9⟩, 1, 9⟩,
   ⟨.symbol .question, ⟨10, 11⟩, 1, 11⟩, ⟨.keyword .and, ⟨12, 15⟩, 1, 13⟩, ⟨.keyword .not, ⟨16, 19⟩, 1, 17⟩,
   ⟨.identifier "b", ⟨20, 21⟩, 1, 21⟩, ⟨.symbol .eq, ⟨22, 23⟩, 1, 23⟩, ⟨.symbol .question, ⟨24, 25⟩, 1, 25⟩]

/-- The formula of that clause. -/
def negatedFormula : Formula :=
  .and (.atom (.equal ⟨⟨"a", none⟩, []⟩ .placeholder)) (.not (.atom (.equal ⟨⟨"b", none⟩, []⟩ .placeholder)))

theorem whereClause_sound_negated :
    ∃ u, Walk.whereClause ⟨.along .mysql ⟨25, 1, 26⟩ 0 (negatedClause ++ []), .ofKind .select⟩ = .ok () u ∧
      u.cursor = .along .mysql ⟨25, 1, 26⟩ (0 + negatedFormula.placeholders) [] ∧
      (∀ truth : Predicate → Prop, negatedFormula.Holds truth 0 →
        ∀ c ∈ u.statement.conditions.entries, truth (.condition c)) ∧
      (negatedFormula.IsConjunction → u.statement.conditions = ⟨negatedFormula.conditions 0, true⟩) :=
  whereClause_sound .mysql ⟨25, 1, 26⟩ 0 negatedClause [] (.ofKind .select) negatedFormula
    (by simp [Proper, negatedClause]) rfl rfl rfl

end SqlSharding.Sql
