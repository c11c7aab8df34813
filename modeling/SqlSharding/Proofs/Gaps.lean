import SqlSharding.Proofs.Layout

/-!
# Gaps

What stands between tokens: white space, comments that end with their line, and block comments, which may contain
others. Skipping finds exactly these stretches (`isGap_of_skipGap`, `skipGap_append`).
-/

namespace SqlSharding.Sql

variable {d : Dialect} {closed : Bool} {cs gap rest : List Char} {c : Char} {n : Nat} {p q r : Place}

/-! ## White space -/

theorem skipGap_space (blank : isSpace c = true) : skipGap d .outside p (c :: rest) = skipGap d .outside (p.after c) rest := by
  have noDash : c ≠ '-' := by
    rintro rfl
    simp [isSpace] at blank
  have noSlash : c ≠ '/' := by
    rintro rfl
    simp [isSpace] at blank
  rw [skipGap, if_pos blank]
  · exact fun _ isDash => absurd isDash noDash
  · exact fun _ isSlash => absurd isSlash noSlash

/-! ## Comments -/

/-- The rest of nested block comments, of which as many as given are open besides the outermost one. It ends where that one is
closed. -/
inductive ClosesComments : Nat → List Char → Prop
  | opens {n : Nat} {cs : List Char} (rest : ClosesComments (n + 1) cs) : ClosesComments n ('/' :: '*' :: cs)
  | closes {n : Nat} {cs : List Char} (rest : ClosesComments n cs) : ClosesComments (n + 1) ('*' :: '/' :: cs)
  | last : ClosesComments 0 ['*', '/']
  | passes {n : Nat} {c : Char} {cs : List Char} (notOpens : ∀ tail, c = '/' → cs ≠ '*' :: tail)
    (notCloses : ∀ tail, c = '*' → cs ≠ '/' :: tail) (rest : ClosesComments n cs) : ClosesComments n (c :: cs)

/-- What begins a comment that ends with its line. -/
inductive OpensLine (d : Dialect) : List Char → Prop
  | dashes : OpensLine d ['-', '-']
  | hash (allowed : d.hashComments = true) : OpensLine d ['#']

/-- White space and complete comments. A gap that is not closed may end with a line comment whose line does not end. -/
inductive IsGap (d : Dialect) : Bool → List Char → Prop
  | nil {closed : Bool} : IsGap d closed []
  | space {closed : Bool} {c : Char} {gap : List Char} (blank : isSpace c = true) (rest : IsGap d closed gap) :
    IsGap d closed (c :: gap)
  | line {closed : Bool} {opening cs gap : List Char} (opens : OpensLine d opening) (sameLine : '\n' ∉ cs)
    (rest : IsGap d closed gap) : IsGap d closed (opening ++ cs ++ '\n' :: gap)
  | block {closed : Bool} {cs gap : List Char} (closes : ClosesComments 0 cs) (rest : IsGap d closed gap) :
    IsGap d closed ('/' :: '*' :: cs ++ gap)
  | lastLine {opening cs : List Char} (opens : OpensLine d opening) (sameLine : '\n' ∉ cs) : IsGap d false (opening ++ cs)

/-! ## What skipping passes -/

/-- What is left of a gap, by where in it a character stands. -/
def GapState.IsRest (d : Dialect) (closed : Bool) : GapState → List Char → Prop
  | outside, gap => IsGap d closed gap
  | line, gap => (∃ cs after, '\n' ∉ cs ∧ gap = cs ++ '\n' :: after ∧ IsGap d closed after) ∨ closed = false ∧ '\n' ∉ gap
  | block outer _, gap => ∃ cs after, ClosesComments outer cs ∧ gap = cs ++ after ∧ IsGap d closed after

theorem OpensLine.isGap {opening : List Char} (opens : OpensLine d opening) (rest : GapState.line.IsRest d closed gap) :
    IsGap d closed (opening ++ gap) := by
  rcases rest with ⟨cs, after, sameLine, rfl, isGap⟩ | ⟨rfl, sameLine⟩
  · rw [← List.append_assoc]
    exact .line opens sameLine isGap
  · exact .lastLine opens sameLine

/-- What is skipped is a gap. Only at the end of the text it may have a line comment without the end of its line. -/
theorem isRest_of_skipGap {state : GapState} (skipped : skipGap d state p cs = .ok (q, rest)) :
    ∃ gap, cs = gap ++ rest ∧ q = p.afterAll gap ∧ state.IsRest d (!rest.isEmpty) gap := by
  fun_induction skipGap d state p cs with
  | case1 p cs ih =>
    obtain ⟨gap, rfl, rfl, isRest⟩ := ih skipped
    exact ⟨'-' :: '-' :: gap, rfl, rfl, OpensLine.dashes.isGap isRest⟩
  | case2 p cs ih =>
    obtain ⟨gap, rfl, rfl, inner, after, closes, rfl, isGap⟩ := ih skipped
    exact ⟨'/' :: '*' :: (inner ++ after), rfl, rfl, .block closes isGap⟩
  | case3 p c cs _ _ blank ih =>
    obtain ⟨gap, rfl, rfl, isRest⟩ := ih skipped
    exact ⟨c :: gap, rfl, rfl, .space blank isRest⟩
  | case4 p c cs _ _ _ hash ih =>
    obtain ⟨gap, rfl, rfl, isRest⟩ := ih skipped
    rw [Bool.and_eq_true, decide_eq_true_eq] at hash
    obtain ⟨rfl, allowed⟩ := hash
    exact ⟨'#' :: gap, rfl, rfl, (OpensLine.hash allowed).isGap isRest⟩
  | case5 p c cs =>
    cases skipped
    exact ⟨[], rfl, rfl, .nil⟩
  | case6 p c cs ih =>
    obtain ⟨gap, rfl, rfl, isRest⟩ := ih skipped
    refine ⟨c :: gap, rfl, rfl, ?_⟩
    by_cases ends : c = '\n'
    · rw [if_pos ends] at isRest
      exact .inl ⟨[], gap, List.not_mem_nil, by rw [ends]; rfl, isRest⟩
    · rw [if_neg ends] at isRest
      rcases isRest with ⟨inner, after, sameLine, rfl, isGap⟩ | ⟨notClosed, sameLine⟩
      · exact .inl ⟨c :: inner, after, List.not_mem_cons_of_ne_of_not_mem (Ne.symm ends) sameLine, rfl, isGap⟩
      · exact .inr ⟨notClosed, List.not_mem_cons_of_ne_of_not_mem (Ne.symm ends) sameLine⟩
  | case7 outer opened p cs ih =>
    obtain ⟨gap, rfl, rfl, inner, after, closes, rfl, isGap⟩ := ih skipped
    exact ⟨'/' :: '*' :: (inner ++ after), rfl, rfl, '/' :: '*' :: inner, after, .opens closes, rfl, isGap⟩
  | case8 opened p cs ih =>
    obtain ⟨gap, rfl, rfl, isGap⟩ := ih skipped
    exact ⟨'*' :: '/' :: gap, rfl, rfl, ['*', '/'], gap, .last, rfl, isGap⟩
  | case9 outer opened p cs ih =>
    obtain ⟨gap, rfl, rfl, inner, after, closes, rfl, isGap⟩ := ih skipped
    exact ⟨'*' :: '/' :: (inner ++ after), rfl, rfl, '*' :: '/' :: inner, after, .closes closes, rfl, isGap⟩
  | case10 outer opened p c cs notOpens notClosed notCloses ih =>
    obtain ⟨gap, rfl, rfl, inner, after, closes, rfl, isGap⟩ := ih skipped
    refine ⟨c :: (inner ++ after), rfl, rfl, c :: inner, after, ?_, rfl, isGap⟩
    apply ClosesComments.passes _ _ closes
    · rintro tail isSlash rfl
      exact notOpens _ isSlash rfl
    · rintro tail isStar rfl
      cases outer with
      | zero => exact notClosed _ rfl isStar rfl
      | succ outer => exact notCloses outer _ rfl isStar rfl
  | case11 => cases skipped
  | case12 =>
    cases skipped
    exact ⟨[], rfl, rfl, .nil⟩
  | case13 =>
    cases skipped
    exact ⟨[], rfl, rfl, .inr ⟨rfl, List.not_mem_nil⟩⟩

/-- What is skipped before a token is a gap in which all comments are complete. -/
theorem isGap_of_skipGap (skipped : skipGap d .outside p cs = .ok (q, c :: rest)) :
    ∃ gap, cs = gap ++ c :: rest ∧ q = p.afterAll gap ∧ IsGap d true gap :=
  isRest_of_skipGap skipped

/-- What is skipped at the end of a text is a gap. -/
theorem isGap_of_skipGap_end (skipped : skipGap d .outside p cs = .ok (q, [])) : q = p.afterAll cs ∧ IsGap d false cs := by
  obtain ⟨gap, rfl, rfl, isGap⟩ := isRest_of_skipGap skipped
  rw [List.append_nil]
  exact ⟨rfl, isGap⟩

/-! ## What is skipped -/

theorem skipGap_opening {opening : List Char} (opens : OpensLine d opening) :
    skipGap d .outside p (opening ++ rest) = skipGap d .line (p.afterAll opening) rest := by
  cases opens with
  | dashes => rfl
  | hash allowed =>
    show skipGap d .outside p ('#' :: rest) = _
    rw [skipGap, if_neg (by decide), if_pos (by simp [allowed])]
    · rfl
    · simp
    · simp

/-- A line comment is passed up to the end of its line or of the text. -/
theorem skipGap_line (sameLine : '\n' ∉ cs) (rest : List Char) :
    skipGap d .line p (cs ++ '\n' :: rest) = skipGap d .outside (p.afterAll (cs ++ ['\n'])) rest ∧
      skipGap d .line p cs = .ok (p.afterAll cs, []) := by
  induction cs generalizing p with
  | nil => exact ⟨rfl, rfl⟩
  | cons c cs ih =>
    rw [List.mem_cons, not_or] at sameLine
    obtain ⟨other, sameLine⟩ := sameLine
    obtain ⟨toNext, toEnd⟩ := ih (p := p.after c) sameLine
    constructor
    · rw [List.cons_append, skipGap, if_neg (Ne.symm other), toNext]
      rfl
    · rw [skipGap, if_neg (Ne.symm other), toEnd]
      rfl

/-- Comments are passed up to where the outermost one is closed. -/
theorem skipGap_block {opened : Place} (closes : ClosesComments n cs) :
    skipGap d (.block n opened) p (cs ++ rest) = skipGap d .outside (p.afterAll cs) rest := by
  induction closes generalizing p with
  | opens inner ih =>
    rw [List.cons_append, List.cons_append, skipGap, ih]
    rfl
  | @closes n cs outer ih =>
    rw [List.cons_append, List.cons_append, skipGap, ih]
    · rfl
  | last => rfl
  | @passes n c cs notOpens notCloses inner ih =>
    have nonempty : cs ≠ [] := by
      rintro rfl
      cases inner
    obtain ⟨next, cs, rfl⟩ := List.exists_cons_of_ne_nil nonempty
    rw [List.cons_append, skipGap, ih]
    · rfl
    · rintro tail isSlash ⟨⟩
      exact notOpens _ isSlash rfl
    · rintro tail - isStar ⟨⟩
      exact notCloses _ isStar rfl
    · rintro m tail - isStar ⟨⟩
      exact notCloses _ isStar rfl

/-- A gap is skipped. One with an incomplete comment can only stand at the end of a text. -/
theorem skipGap_append (isGap : IsGap d closed gap) (atEnd : closed = false → rest = []) :
    skipGap d .outside p (gap ++ rest) = skipGap d .outside (p.afterAll gap) rest := by
  induction isGap generalizing p with
  | nil => rfl
  | space blank _ ih => rw [List.cons_append, skipGap_space blank, ih atEnd]; rfl
  | @line _ opening cs gap opens sameLine _ ih =>
    rw [List.append_assoc, List.append_assoc, skipGap_opening opens, List.cons_append, (skipGap_line sameLine _).1, ih atEnd]
    simp only [Place.afterAll_append]
    rfl
  | @block _ cs gap closes _ ih =>
    show skipGap d .outside p ('/' :: '*' :: (cs ++ gap ++ rest)) = _
    rw [skipGap, List.append_assoc, skipGap_block closes, ih atEnd, ← Place.afterAll_append, ← Place.afterAll_append]
    rfl
  | @lastLine opening cs opens sameLine =>
    rw [atEnd rfl, List.append_nil, skipGap_opening opens, (skipGap_line sameLine []).2, Place.afterAll_append]
    rfl

/-- Where skipping fails, a comment is open that began in the text, and the text ends. -/
theorem opened_of_skipGap {state : GapState} (failed : skipGap d state p cs = .error (q, r)) :
    r = p.afterAll cs ∧ ((∃ outer, state = .block outer q) ∨ ∃ before after, cs = before ++ after ∧ q = p.afterAll before) := by
  have behind {p : Place} (front : List Char) {cs : List Char} (inside : ∃ before after, cs = before ++ after ∧
      q = (p.afterAll front).afterAll before) : ∃ before after, front ++ cs = before ++ after ∧ q = p.afterAll before := by
    obtain ⟨before, after, rfl, rfl⟩ := inside
    exact ⟨front ++ before, after, (List.append_assoc ..).symm, (Place.afterAll_append ..).symm⟩
  fun_induction skipGap d state p cs with
  | case5 | case12 | case13 => cases failed
  | case11 outer opened p =>
    cases failed
    exact ⟨rfl, .inl ⟨outer, rfl⟩⟩
  | case2 p cs ih =>
    obtain ⟨rfl, ⟨_, ⟨⟩⟩ | inside⟩ := ih failed
    · exact ⟨rfl, .inr ⟨[], '/' :: '*' :: cs, rfl, rfl⟩⟩
    · exact ⟨rfl, .inr (behind ['/', '*'] inside)⟩
  | case1 p cs ih =>
    obtain ⟨rfl, ⟨_, ⟨⟩⟩ | inside⟩ := ih failed
    exact ⟨rfl, .inr (behind ['-', '-'] inside)⟩
  | case3 p c cs _ _ _ ih | case4 p c cs _ _ _ _ ih =>
    obtain ⟨rfl, ⟨_, ⟨⟩⟩ | inside⟩ := ih failed
    exact ⟨rfl, .inr (behind [c] inside)⟩
  | case6 p c cs ih =>
    obtain ⟨rfl, ⟨_, isBlock⟩ | inside⟩ := ih failed
    · split at isBlock <;> cases isBlock
    · exact ⟨rfl, .inr (behind [c] inside)⟩
  | case7 outer opened p cs ih =>
    obtain ⟨rfl, ⟨_, ⟨⟩⟩ | inside⟩ := ih failed
    · exact ⟨rfl, .inl ⟨outer, rfl⟩⟩
    · exact ⟨rfl, .inr (behind ['/', '*'] inside)⟩
  | case8 opened p cs ih =>
    obtain ⟨rfl, ⟨_, ⟨⟩⟩ | inside⟩ := ih failed
    exact ⟨rfl, .inr (behind ['*', '/'] inside)⟩
  | case9 outer opened p cs ih =>
    obtain ⟨rfl, ⟨_, ⟨⟩⟩ | inside⟩ := ih failed
    · exact ⟨rfl, .inl ⟨outer + 1, rfl⟩⟩
    · exact ⟨rfl, .inr (behind ['*', '/'] inside)⟩
  | case10 outer opened p c cs _ _ _ ih =>
    obtain ⟨rfl, ⟨_, ⟨⟩⟩ | inside⟩ := ih failed
    · exact ⟨rfl, .inl ⟨outer, rfl⟩⟩
    · exact ⟨rfl, .inr (behind [c] inside)⟩

end SqlSharding.Sql
