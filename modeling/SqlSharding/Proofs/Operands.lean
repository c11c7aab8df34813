import SqlSharding.Proofs.KeyPlaces

/-!
# Operands in the text

Placeholders are numbered by their order in the text. A value that a walk reads is spelled by the tokens that the walk
passes, and a placeholder has for its number that of the placeholders before it.
-/

namespace SqlSharding.Sql

/-- The number of placeholders among some tokens. -/
def placeholders (ts : List Token) : Nat := ts.countP fun t => t.kind = .symbol .question

@[simp] theorem placeholders_nil : placeholders [] = 0 := rfl

@[simp] theorem placeholders_append (ts us : List Token) : placeholders (ts ++ us) = placeholders ts + placeholders us :=
  List.countP_append

theorem placeholders_cons (t : Token) (ts : List Token) : placeholders (t :: ts) = placeholders [t] + placeholders ts :=
  placeholders_append [t] ts

theorem placeholders_question {t : Token} (isQuestion : t.kind = .symbol .question) : placeholders [t] = 1 := by
  simp [placeholders, isQuestion]

theorem placeholders_other {t : Token} (other : t.kind ≠ .symbol .question) : placeholders [t] = 0 := by
  simp [placeholders, other]

theorem placeholders_cons_other {t : Token} (other : t.kind ≠ .symbol .question) (ts : List Token) :
    placeholders (t :: ts) = placeholders ts := by
  rw [placeholders_cons, placeholders_other other, Nat.zero_add]

theorem Cursor.countAfter_eq (n : Nat) (t : Token) : countAfter n t.kind = n + placeholders [t] := by
  by_cases isQuestion : t.kind = .symbol .question
  · rw [placeholders_question isQuestion, countAfter, if_pos isQuestion]
  · rw [placeholders_other isQuestion, countAfter, if_neg isQuestion, Nat.add_zero]

/-- Whether a kind is a sign or a keyword, which its shape alone tells from all others. -/
def TokenKind.isFixed : TokenKind → Bool
  | symbol _ => true
  | keyword _ => true
  | _ => false

theorem TokenKind.sameShape_fixed {k l : TokenKind} (fixed : k.isFixed = true) : l.sameShape k = true ↔ l = k := by
  cases k with
  | symbol => exact sameShape_symbol
  | keyword => exact sameShape_keyword
  | _ => cases fixed

theorem TokenKind.ne_symbol_of_keyword {k : TokenKind} {w : Keyword} {sign : Symbol} (isWord : k = .keyword w) : k ≠ .symbol sign := by
  rintro rfl
  cases isWord

theorem TokenKind.ne_endOfInput_of_fixed {k : TokenKind} (fixed : k.isFixed = true) : k ≠ .endOfInput := by
  rintro rfl
  cases fixed

theorem Cursor.kind_mem_of_checkAny {c : Cursor} {ks : List TokenKind} (fixed : ∀ k ∈ ks, k.isFixed = true)
    (found : c.checkAny ks = true) : c.kind ∈ ks := by
  obtain ⟨k, member, same⟩ := List.any_eq_true.mp found
  rwa [(TokenKind.sameShape_fixed (fixed k member)).mp same]

/-- Passes the current token if a test of the cursor says so. -/
def Walk.passIf (test : Cursor → Bool) : Walk Bool := do
  if test (← cursor) then
    discard advance
    return true
  else return false

/-- A state whose cursor stands between the tokens that are passed and those that are left. -/
def Poised (d : Dialect) (p : Place) (passed left : List Token) (s : WalkState) : Prop :=
  s.cursor = .along d p (placeholders passed) left

/-- Whether some tokens begin with one of the given kinds. -/
def BeginsWith (ks : List TokenKind) (left : List Token) : Prop := ∃ t rest, left = t :: rest ∧ t.kind ∈ ks

/-- A walk passes some of the tokens that are left and records nothing. -/
structure Passed (d : Dialect) (p : Place) (before left : List Token) (s : WalkState) (taken later : List Token)
    (u : WalkState) : Prop where
  split : left = taken ++ later
  poised : Poised d p (before ++ taken) later u
  unchanged : u.statement = s.statement

variable {d : Dialect} {p : Place} {before left mid later taken taken' : List Token} {s t u : WalkState}

theorem Passed.refl (poised : Poised d p before left s) : Passed d p before left s [] left s :=
  ⟨rfl, by rwa [List.append_nil], rfl⟩

theorem Passed.trans (first : Passed d p before left s taken mid t)
    (second : Passed d p (before ++ taken) mid t taken' later u) :
    Passed d p before left s (taken ++ taken') later u := by
  obtain ⟨rfl, -, unchanged⟩ := first
  obtain ⟨rfl, poised, unchanged'⟩ := second
  exact ⟨(List.append_assoc ..).symm, by rwa [← List.append_assoc], unchanged'.trans unchanged⟩

theorem Passed.proper (passed : Passed d p before left s taken later u) (proper : Proper left) : Proper later :=
  proper.rest passed.split

namespace Poised

variable (proper : Proper left) (poised : Poised d p before left s)

include poised

/-- Before the end of the text the current token is the first of those that are left. -/
theorem head (inside : s.cursor.kind ≠ .endOfInput) : ∃ t later, left = t :: later ∧ s.cursor.current = t := by
  rw [poised] at inside ⊢
  cases left with
  | nil => exact absurd rfl inside
  | cons t later => exact ⟨t, later, rfl, rfl⟩

include proper

/-- A walk that records nothing only passes tokens. -/
theorem silent {α : Type} {m : Walk α} {a : α} (run : m s = .ok a u)
    (keeps : ∀ {I : WalkState → Prop}, (Company.keeping I).InStep → Walk.Keeps I m) :
    ∃ taken later, Passed d p before left s taken later u := by
  refine keeps (I := fun v => ∃ taken later, Passed d p before left s taken later v)
    (Company.keeping_inStep ?_) s a u run ⟨[], left, .refl poised⟩
  clear run poised
  rintro v t w advances ⟨taken, later, rfl, poised, unchanged⟩
  obtain ⟨next, step, -, rfl⟩ := Walk.advance_eq_ok_iff.mp advances
  rw [show v.cursor = _ from poised] at step
  cases later with
  | nil =>
    rw [Cursor.along_step_nil] at step
    cases step
    exact ⟨taken, [], rfl, rfl, unchanged⟩
  | cons t later =>
    rw [Cursor.along_step proper.right, Cursor.countAfter_eq, ← placeholders_append] at step
    cases step
    refine ⟨taken ++ [t], later, by simp, ?_, unchanged⟩
    rw [← List.append_assoc]
    rfl

/-- Before the end of the text a step passes the current token. -/
theorem advance {x : Token} (inside : s.cursor.kind ≠ .endOfInput) (run : Walk.advance s = .ok x u) :
    ∃ later, Passed d p before left s [x] later u ∧ s.cursor.current = x := by
  obtain ⟨next, step, rfl, rfl⟩ := Walk.advance_eq_ok_iff.mp run
  cases left with
  | nil =>
    rw [poised] at inside
    exact absurd rfl inside
  | cons t later =>
    rw [poised, Cursor.along_step proper, Cursor.countAfter_eq, ← placeholders_append] at step
    cases step
    rw [poised]
    exact ⟨later, ⟨rfl, rfl, rfl⟩, rfl⟩

theorem passIf (test : Cursor → Bool) {found : Bool} (inside : test s.cursor = true → s.cursor.kind ≠ .endOfInput)
    (run : Walk.passIf test s = .ok found u) :
    if found then test s.cursor = true ∧ ∃ x later, Passed d p before left s [x] later u ∧ s.cursor.current = x
    else u = s := by
  obtain ⟨_, _, ⟨⟩, run⟩ := Walk.bind_eq_ok_iff.mp run
  cases tested : test s.cursor with
  | false =>
    rw [tested] at run
    obtain ⟨rfl, rfl⟩ := Walk.pure_eq_ok_iff.mp run
    rfl
  | true =>
    rw [tested] at run
    obtain ⟨_, s₁, passes, run⟩ := Walk.bind_eq_ok_iff.mp run
    obtain ⟨x, advances, -⟩ := Walk.map_eq_ok_iff.mp passes
    obtain ⟨rfl, rfl⟩ := Walk.pure_eq_ok_iff.mp run
    obtain ⟨later, passed, isFirst⟩ := poised.advance proper (inside tested) advances
    exact ⟨rfl, x, later, passed, isFirst⟩

theorem eat {k : TokenKind} (fixed : k.isFixed = true) {found : Bool} (run : Walk.eat k s = .ok found u) :
    if found then ∃ x later, Passed d p before left s [x] later u ∧ x.kind = k else u = s := by
  have isKind (same : s.cursor.check k = true) : s.cursor.kind = k := (TokenKind.sameShape_fixed fixed).mp same
  have ended := poised.passIf proper (·.check k) (fun same => isKind same ▸ TokenKind.ne_endOfInput_of_fixed fixed) run
  cases found with
  | false => exact ended
  | true =>
    obtain ⟨same, x, later, passed, rfl⟩ := ended
    exact ⟨_, later, passed, isKind same⟩

theorem eatAny {ks : List TokenKind} (fixed : ∀ k ∈ ks, k.isFixed = true) {found : Bool}
    (run : Walk.eatAny ks s = .ok found u) :
    if found then ∃ x later, Passed d p before left s [x] later u ∧ x.kind ∈ ks else u = s := by
  have isKind (same : s.cursor.checkAny ks = true) : s.cursor.kind ∈ ks := Cursor.kind_mem_of_checkAny fixed same
  have ended := poised.passIf proper (·.checkAny ks)
    (fun same => TokenKind.ne_endOfInput_of_fixed (fixed _ (isKind same))) run
  cases found with
  | false => exact ended
  | true =>
    obtain ⟨same, x, later, passed, rfl⟩ := ended
    exact ⟨_, later, passed, isKind same⟩

theorem expect {k : TokenKind} (fixed : k.isFixed = true) {v : Unit} (run : discard (Walk.expect k) s = .ok v u) :
    ∃ x later, Passed d p before left s [x] later u ∧ x.kind = k := by
  obtain ⟨x, run, -⟩ := Walk.map_eq_ok_iff.mp run
  obtain ⟨found, _, ⟨⟩, run⟩ := Walk.bind_eq_ok_iff.mp run
  split at run
  · next same =>
    have isKind : s.cursor.kind = k := (TokenKind.sameShape_fixed fixed).mp same
    obtain ⟨later, passed, isFirst⟩ := poised.advance proper (isKind ▸ TokenKind.ne_endOfInput_of_fixed fixed) run
    exact ⟨x, later, passed, isFirst ▸ isKind⟩
  · cases run

theorem expectAny {ks : List TokenKind} (fixed : ∀ k ∈ ks, k.isFixed = true) {what : Expectation} {v : Unit}
    (run : discard (Walk.expectAny ks what) s = .ok v u) :
    ∃ x later, Passed d p before left s [x] later u ∧ x.kind ∈ ks := by
  obtain ⟨x, run, -⟩ := Walk.map_eq_ok_iff.mp run
  obtain ⟨found, _, ⟨⟩, run⟩ := Walk.bind_eq_ok_iff.mp run
  split at run
  · next same =>
    have member := Cursor.kind_mem_of_checkAny fixed same
    obtain ⟨later, passed, rfl⟩ :=
      poised.advance proper (TokenKind.ne_endOfInput_of_fixed (fixed _ member)) run
    exact ⟨_, later, passed, member⟩
  · cases run

/-- What a loop passes, token by token, until it finds nothing to pass. -/
theorem passWhile {m : Walk Bool} {P : Token → Prop}
    (round : ∀ {before left s again u}, Proper left → Poised d p before left s → m s = .ok again u →
      if again then ∃ x later, Passed d p before left s [x] later u ∧ P x else u = s)
    {v : Unit} (run : Walk.repeatWhile m s = .ok v u) :
    ∃ taken later, Passed d p before left s taken later u ∧ (∀ t ∈ taken, P t) ∧ m u = .ok false u := by
  refine Walk.repeatFrom_induction
    (J := fun _ u => ∃ taken later, Passed d p before left s taken later u ∧ ∀ t ∈ taken, P t)
    (K := fun _ u => ∃ taken later, Passed d p before left s taken later u ∧ (∀ t ∈ taken, P t) ∧ m u = .ok false u)
    ?_ ?_ run ⟨[], left, .refl poised, nofun⟩
  · rintro _ t ⟨⟩ w ⟨taken, later, passed, each⟩ run
    obtain ⟨again, run, same⟩ := Walk.map_eq_ok_iff.mp run
    cases same
    obtain ⟨x, more, passed', holds⟩ := round (passed.proper proper) passed.poised run
    refine ⟨taken ++ [x], more, passed.trans passed', fun t member => ?_⟩
    rcases List.mem_append.mp member with old | new
    · exact each t old
    · rwa [List.mem_singleton.mp new]
  · rintro _ t ⟨⟩ w ⟨taken, later, passed, each⟩ run
    obtain ⟨again, run, same⟩ := Walk.map_eq_ok_iff.mp run
    cases same
    obtain rfl : w = t := round (passed.proper proper) passed.poised run
    exact ⟨taken, later, passed, each, run⟩

end Poised

/-- A token is left only if it is another one. -/
theorem Walk.check_of_eat_false {k : TokenKind} (run : Walk.eat k s = .ok false u) : s.cursor.check k = false := by
  obtain ⟨_, _, ⟨⟩, run⟩ := Walk.bind_eq_ok_iff.mp run
  cases same : s.cursor.check k with
  | false => rfl
  | true =>
    rw [same] at run
    obtain ⟨_, _, -, run⟩ := Walk.bind_eq_ok_iff.mp run
    cases (Walk.pure_eq_ok_iff.mp run).1

theorem Walk.checkAny_of_eatAny_false {ks : List TokenKind} (run : Walk.eatAny ks s = .ok false u) :
    s.cursor.checkAny ks = false := by
  obtain ⟨_, _, ⟨⟩, run⟩ := Walk.bind_eq_ok_iff.mp run
  cases check : s.cursor.checkAny ks with
  | false => rfl
  | true =>
    rw [check] at run
    obtain ⟨_, _, -, run⟩ := Walk.bind_eq_ok_iff.mp run
    cases (Walk.pure_eq_ok_iff.mp run).1

theorem Poised.not_beginsWith {ks : List TokenKind} (fixed : ∀ k ∈ ks, k.isFixed = true) (poised : Poised d p before left s)
    (other : s.cursor.checkAny ks = false) : ¬ BeginsWith ks left := by
  rintro ⟨t, rest, rfl, member⟩
  have found : s.cursor.checkAny ks = true := by
    rw [Cursor.checkAny, List.any_eq_true]
    refine ⟨t.kind, member, ?_⟩
    rw [Cursor.check, poised, Cursor.along_cons_kind]
    exact (TokenKind.sameShape_fixed (fixed _ member)).mpr rfl
  rw [other] at found
  cases found

/-- A token that is not passed does not stand here. -/
theorem Poised.not_beginsWith_of_eat {k : TokenKind} (fixed : k.isFixed = true) (poised : Poised d p before left s)
    (run : Walk.eat k s = .ok false u) : ¬ BeginsWith [k] left := by
  refine poised.not_beginsWith (by simpa using fixed) ?_
  rw [Cursor.checkAny, List.any_cons, List.any_nil, Bool.or_false]
  exact Walk.check_of_eat_false run

/-! ## Values -/

/-- The numbers of the placeholders that an operand refers to. -/
def Operand.indices : Operand → List Nat
  | literal _ => []
  | placeholder i => [i]

/-- The tokens that spell an operand after the given number of placeholders. -/
inductive Operand.Spelled (n : Nat) : List Token → Operand → Prop
  | integer {t : Token} {i : Int64} : t.kind = .integer i → Spelled n [t] (.literal (.integer i))
  | float {t : Token} {x : Binary64} : t.kind = .float x → Spelled n [t] (.literal (.float x))
  | string {t : Token} {text : String} : t.kind = .string text → Spelled n [t] (.literal (.text text))
  | placeholder {t : Token} : t.kind = .symbol .question → Spelled n [t] (.placeholder n)
  | negative {sign t : Token} {v : Value} :
      sign.kind = .symbol .minus → Walk.negated? t.kind = some v → Spelled n [sign, t] (.literal v)

theorem Operand.Spelled.indices_eq {n : Nat} {ts : List Token} {x : Operand} (spelled : x.Spelled n ts) :
    x.indices = List.range' n (placeholders ts) := by
  cases spelled with
  | integer kind | float kind | string kind =>
    rw [placeholders_other (by simp [kind])]
    rfl
  | placeholder kind =>
    rw [placeholders_question kind]
    rfl
  | @negative sign t v kind negated =>
    have other : t.kind ≠ .symbol .question := by
      intro same
      rw [same] at negated
      cases negated
    rw [placeholders_cons, placeholders_other (by simp [kind]), placeholders_other other]
    rfl

namespace Poised

variable (proper : Proper left) (poised : Poised d p before left s)

include proper poised

/-- The tokens that a walk passes spell the value that it reads. -/
theorem value? {x? : Option Operand} (run : Walk.value? s = .ok x? u) :
    ∃ taken later, Passed d p before left s taken later u ∧ ∀ x, x? = some x → x.Spelled (placeholders before) taken := by
  have passes {s u : WalkState} {before left : List Token} {x x? : Option Operand} (proper : Proper left)
      (poised : Poised d p before left s) (inside : s.cursor.kind ≠ .endOfInput)
      (run : (do discard Walk.advance; return x) s = .ok x? u) :
      ∃ t later, Passed d p before left s [t] later u ∧ t.kind = s.cursor.kind ∧ x? = x := by
    obtain ⟨_, s₁, passes, run⟩ := Walk.bind_eq_ok_iff.mp run
    obtain ⟨t, advances, -⟩ := Walk.map_eq_ok_iff.mp passes
    obtain ⟨rfl, rfl⟩ := Walk.pure_eq_ok_iff.mp run
    obtain ⟨later, passed, rfl⟩ := poised.advance proper inside advances
    exact ⟨_, later, passed, rfl, rfl⟩
  have stays {x : Option Operand} (run : (Pure.pure none : Walk (Option Operand)) s = .ok x u) :
      ∃ taken later, Passed d p before left s taken later u ∧ ∀ y, x = some y → y.Spelled (placeholders before) taken := by
    obtain ⟨rfl, rfl⟩ := Walk.pure_eq_ok_iff.mp run
    exact ⟨[], left, .refl poised, by simp⟩
  obtain ⟨k, _, ⟨⟩, run⟩ := Walk.bind_eq_ok_iff.mp run
  generalize isKind : s.cursor.kind = k at run
  cases k with
  | integer | float | string =>
    obtain ⟨t, later, passed, same, rfl⟩ := passes proper poised (by simp [isKind]) run
    refine ⟨[t], later, passed, ?_⟩
    rintro _ ⟨⟩
    first
    | exact .integer (same.trans isKind)
    | exact .float (same.trans isKind)
    | exact .string (same.trans isKind)
  | symbol sign =>
    cases sign with
    | question =>
      obtain ⟨index, _, ⟨⟩, run⟩ := Walk.bind_eq_ok_iff.mp run
      obtain ⟨t, later, passed, same, rfl⟩ := passes proper poised (by simp [isKind]) run
      refine ⟨[t], later, passed, ?_⟩
      rintro _ ⟨⟩
      rw [show s.cursor.parameterIndex = placeholders before by rw [poised, Cursor.along_parameterIndex]]
      exact .placeholder (same.trans isKind)
    | minus =>
      obtain ⟨_, s₁, passesSign, run⟩ := Walk.bind_eq_ok_iff.mp run
      obtain ⟨sign, advances, -⟩ := Walk.map_eq_ok_iff.mp passesSign
      obtain ⟨later, passed, rfl⟩ := poised.advance proper (by simp [isKind]) advances
      have properLater := passed.proper proper
      obtain ⟨k, _, ⟨⟩, run⟩ := Walk.bind_eq_ok_iff.mp run
      cases negated : Walk.negated? s₁.cursor.kind with
      | none =>
        simp only [negated] at run
        obtain ⟨rfl, rfl⟩ := Walk.pure_eq_ok_iff.mp run
        exact ⟨[_], later, passed, by simp⟩
      | some v =>
        simp only [negated] at run
        have inside : s₁.cursor.kind ≠ .endOfInput := by
          intro same
          rw [same] at negated
          cases negated
        obtain ⟨t, later', passed', same, rfl⟩ := passes properLater passed.poised inside run
        refine ⟨[_] ++ [t], later', passed.trans passed', ?_⟩
        rintro _ ⟨⟩
        exact .negative isKind (same ▸ negated)
    | _ => exact stays run
  | _ => exact stays run

end Poised

/-! ## Names of columns -/

/-- The kinds of the tokens of a dotted name. -/
def TokenKind.isNamePart (k : TokenKind) : Bool := k.isIdentifier || k = .symbol .dot || k = .symbol .star

theorem placeholders_name {ts : List Token} (name : ∀ t ∈ ts, t.kind.isNamePart = true) : placeholders ts = 0 := by
  rw [placeholders, List.countP_eq_zero]
  intro t member same
  have isPart := name t member
  simp only [decide_eq_true_eq] at same
  rw [same] at isPart
  cases isPart

/-- The tokens that spell a column: a dotted name that ends with the column's own name. -/
structure Column.Spelled (ts : List Token) (x : Column) : Prop where
  name : ∀ t ∈ ts, t.kind.isNamePart = true
  last : ∃ init t, ts = init ++ [t] ∧ t.kind.isIdentifier = true ∧ x.name = (Identifier.ofToken t).name

/-- Passes a dot and the part of a name after it. -/
def Walk.namePart (parts : List Identifier) : Walk (Bool × List Identifier × Bool) := do
  if ← eat (.symbol .dot) then
    let k ← kind
    if k.isIdentifier then
      let part ← identifier
      return (true, parts ++ [part], false)
    else if k = .symbol .star then
      discard advance
      return (false, parts, true)
    else failExpected .identifier
  else return (false, parts, false)

/-- The tokens of a dotted name with its parts, and whether a star ends it. -/
inductive NameSpelled : List Token → List Token → Bool → Prop
  | first {t : Token} : t.kind.isIdentifier = true → NameSpelled [t] [t] false
  | part {ts names : List Token} {dot t : Token} : NameSpelled ts names false → dot.kind = .symbol .dot →
      t.kind.isIdentifier = true → NameSpelled (ts ++ [dot, t]) (names ++ [t]) false
  | star {ts names : List Token} {dot t : Token} : NameSpelled ts names false → dot.kind = .symbol .dot →
      t.kind = .symbol .star → NameSpelled (ts ++ [dot, t]) names true

namespace NameSpelled

variable {ts names : List Token} {star : Bool}

theorem isNamePart (spelled : NameSpelled ts names star) : ∀ t ∈ ts, t.kind.isNamePart = true := by
  induction spelled with
  | first isName =>
    intro t member
    rw [List.mem_singleton.mp member, TokenKind.isNamePart, isName]
    rfl
  | part _ isDot isName ih =>
    intro x member
    rcases List.mem_append.mp member with old | new
    · exact ih x old
    · rcases List.mem_pair.mp new with rfl | rfl
      · rw [isDot]
        rfl
      · rw [TokenKind.isNamePart, isName]
        rfl
  | star _ isDot isStar ih =>
    intro x member
    rcases List.mem_append.mp member with old | new
    · exact ih x old
    · rcases List.mem_pair.mp new with rfl | rfl
      · rw [isDot]
        rfl
      · rw [isStar]
        rfl

/-- Unless a name ends with a star, its last part is the last token. -/
theorem last (spelled : NameSpelled ts names false) :
    ∃ init front t, ts = init ++ [t] ∧ names = front ++ [t] ∧ t.kind.isIdentifier = true := by
  cases spelled with
  | @first t isName => exact ⟨[], [], t, rfl, rfl, isName⟩
  | @part ts names dot t _ _ isName => exact ⟨ts ++ [dot], names, t, by simp, rfl, isName⟩

theorem exists_concat (spelled : NameSpelled ts names star) : ∃ front last, names = front ++ [last] := by
  induction spelled with
  | first => exact ⟨[], _, rfl⟩
  | part => exact ⟨_, _, rfl⟩
  | star _ _ _ ih => exact ih

end NameSpelled

/-- The part of a dotted name before the last one, or before the star at its end. -/
def nameOwner? (names : List Token) (star : Bool) : Option Token := if star then names.getLast? else names.dropLast.getLast?

namespace Poised

variable (proper : Proper left) (poised : Poised d p before left s)

include proper poised

theorem identifier {x : Identifier} (run : Walk.identifier s = .ok x u) :
    ∃ t later, Passed d p before left s [t] later u ∧ t.kind.isIdentifier = true ∧ x = .ofToken t := by
  obtain ⟨k, _, ⟨⟩, run⟩ := Walk.bind_eq_ok_iff.mp run
  split at run
  · next names =>
    obtain ⟨t, advances, rfl⟩ := Walk.map_eq_ok_iff.mp run
    have inside : s.cursor.kind ≠ .endOfInput := by
      intro same
      rw [same] at names
      cases names
    obtain ⟨later, passed, rfl⟩ := poised.advance proper inside advances
    exact ⟨_, later, passed, names, rfl⟩
  · cases run

omit poised in
/-- A round that goes on has read a part; one that does not has met a star or no dot. -/
theorem namePart {t : Token} {names taken mid : List Token} {s₁ : WalkState} (passed : Passed d p before left s taken mid s₁)
    (spelled : NameSpelled (t :: taken) names false) {again star : Bool} {parts : List Identifier}
    (run : Walk.namePart (names.map .ofToken) s₁ = .ok (again, parts, star) u) :
    (again = true → star = false) ∧ ∃ taken later names, Passed d p before left s taken later u ∧
      NameSpelled (t :: taken) names star ∧ parts = names.map .ofToken ∧
      (again = false → star = false → ¬ BeginsWith [.symbol .dot] later) := by
  have properMid := passed.proper proper
  obtain ⟨found, s₂, eats, ending⟩ := Walk.bind_eq_ok_iff.mp run
  have dotted := passed.poised.eat properMid rfl eats
  cases found with
  | false =>
    obtain rfl : s₂ = s₁ := dotted
    obtain ⟨same, rfl⟩ := Walk.pure_eq_ok_iff.mp ending
    cases same
    exact ⟨fun _ => rfl, taken, mid, names, passed, spelled, rfl,
      fun _ _ => passed.poised.not_beginsWith_of_eat rfl eats⟩
  | true =>
    obtain ⟨dot, later, passesDot, isDot⟩ := dotted
    have passed₂ := passed.trans passesDot
    have properLater := passesDot.proper properMid
    obtain ⟨k, _, ⟨⟩, ending⟩ := Walk.bind_eq_ok_iff.mp ending
    split at ending
    · obtain ⟨part, s₃, identifies, ending⟩ := Walk.bind_eq_ok_iff.mp ending
      obtain ⟨x, later', passesPart, isName, rfl⟩ := passed₂.poised.identifier properLater identifies
      obtain ⟨same, rfl⟩ := Walk.pure_eq_ok_iff.mp ending
      cases same
      have all := passed₂.trans passesPart
      rw [List.append_assoc] at all
      exact ⟨fun _ => rfl, _, later', names ++ [x], all, .part spelled isDot isName, by simp, by simp⟩
    split at ending
    · next isStar =>
      obtain ⟨_, s₃, passes, ending⟩ := Walk.bind_eq_ok_iff.mp ending
      obtain ⟨x, advances, -⟩ := Walk.map_eq_ok_iff.mp passes
      obtain ⟨same, rfl⟩ := Walk.pure_eq_ok_iff.mp ending
      cases same
      obtain ⟨later', passesStar, rfl⟩ := passed₂.poised.advance properLater (by simp [isStar]) advances
      have all := passed₂.trans passesStar
      rw [List.append_assoc] at all
      exact ⟨by simp, _, later', names, all, .star spelled isDot isStar, rfl, by simp⟩
    · cases ending

theorem nameParts {t : Token} (isName : t.kind.isIdentifier = true) {parts : List Identifier} {star : Bool}
    (run : Walk.nameParts (.ofToken t) s = .ok (parts, star) u) :
    ∃ taken later names, Passed d p before left s taken later u ∧ NameSpelled (t :: taken) names star ∧
      parts = names.map .ofToken ∧ (star = false → ¬ BeginsWith [.symbol .dot] later) := by
  refine Walk.repeatFrom_induction (J := fun (x : List Identifier × Bool) u => x.2 = false ∧
      ∃ taken later names, Passed d p before left s taken later u ∧ NameSpelled (t :: taken) names x.2 ∧ x.1 = names.map .ofToken)
    (K := fun x u => ∃ taken later names, Passed d p before left s taken later u ∧ NameSpelled (t :: taken) names x.2 ∧
      x.1 = names.map .ofToken ∧ (x.2 = false → ¬ BeginsWith [.symbol .dot] later))
    ?_ ?_ run ⟨rfl, [], left, [t], .refl poised, .first isName, rfl⟩
  · rintro ⟨_, _⟩ s₁ ⟨parts, star⟩ u ⟨rfl, taken, mid, names, passed, spelled, rfl⟩ run
    obtain ⟨goesOn, taken', later, names', passed', spelled', same, -⟩ := namePart proper passed spelled run
    exact ⟨goesOn rfl, taken', later, names', passed', spelled', same⟩
  · rintro ⟨_, _⟩ s₁ ⟨parts, star⟩ u ⟨rfl, taken, mid, names, passed, spelled, rfl⟩ run
    obtain ⟨-, taken', later, names', passed', spelled', same, ends⟩ := namePart proper passed spelled run
    exact ⟨taken', later, names', passed', spelled', same, ends rfl⟩

/-- A dotted name is passed, and its owner is recorded if it has one. -/
theorem columnName {x? : Option Column} (run : Walk.column s = .ok x? u) :
    ∃ taken later names star, left = taken ++ later ∧ Poised d p (before ++ taken) later u ∧ NameSpelled taken names star ∧
      (star = false → ¬ BeginsWith [.symbol .dot] later) ∧
      u.statement = (nameOwner? names star).elim s.statement (fun q => s.statement.addQualifier (.ofToken q)) ∧
      ∀ x, x? = some x → star = false ∧ ∀ t ∈ names.getLast?, x.name = (Identifier.ofToken t).name := by
  obtain ⟨first, s₁, identifies, run⟩ := Walk.bind_eq_ok_iff.mp run
  obtain ⟨t, later₁, passed₁, isName, rfl⟩ := poised.identifier proper identifies
  obtain ⟨⟨parts, star⟩, s₂, reads, run⟩ := Walk.bind_eq_ok_iff.mp run
  obtain ⟨taken, later, names, passed₂, spelled, rfl, ends⟩ := passed₁.poised.nameParts (passed₁.proper proper) isName reads
  obtain ⟨split, poised, unchanged⟩ := passed₁.trans passed₂
  obtain ⟨front, last, rfl⟩ := spelled.exists_concat
  have qualified {owner : Identifier} {y z : Option Column} {v : WalkState}
      (records : (do Walk.record (·.addQualifier owner); return y) s₂ = .ok z v) :
      z = y ∧ v.cursor = s₂.cursor ∧ v.statement = s.statement.addQualifier owner := by
    obtain ⟨_, _, ⟨⟩, records⟩ := Walk.bind_eq_ok_iff.mp records
    obtain ⟨rfl, rfl⟩ := Walk.pure_eq_ok_iff.mp records
    exact ⟨rfl, rfl, congrArg (·.addQualifier owner) unchanged⟩
  dsimp only at run
  cases star with
  | true =>
    simp only [if_true, List.map_append, List.map_singleton, List.getLast?_concat] at run
    obtain ⟨rfl, atCursor, recorded⟩ := qualified run
    exact ⟨t :: taken, later, front ++ [last], true, split, atCursor.trans poised, spelled, nofun,
      by simpa [nameOwner?] using recorded, nofun⟩
  | false =>
    simp only [Bool.false_eq_true, if_false, List.map_append, List.map_singleton, List.reverse_append,
      List.reverse_singleton, List.singleton_append] at run
    rcases List.eq_nil_or_concat front with rfl | ⟨others, q, rfl⟩
    · obtain ⟨rfl, rfl⟩ := Walk.pure_eq_ok_iff.mp run
      exact ⟨t :: taken, later, [last], false, split, poised, spelled, ends, unchanged, by rintro _ ⟨⟩; exact ⟨rfl, by simp⟩⟩
    · simp only [List.concat_eq_append, List.map_append, List.map_singleton, List.reverse_append, List.reverse_singleton,
        List.singleton_append] at run
      obtain ⟨rfl, atCursor, recorded⟩ := qualified run
      exact ⟨t :: taken, later, _, false, split, atCursor.trans poised, spelled, ends,
        by simpa [nameOwner?] using recorded, by rintro _ ⟨⟩; exact ⟨rfl, by simp⟩⟩

/-- A dotted name is passed. At most its qualifier is recorded. -/
theorem column {x? : Option Column} (run : Walk.column s = .ok x? u) :
    ∃ taken later qualifiers, left = taken ++ later ∧ Poised d p (before ++ taken) later u ∧ placeholders taken = 0 ∧
      u.statement = { s.statement with qualifiers } ∧ ∀ x, x? = some x → x.Spelled taken := by
  obtain ⟨taken, later, names, star, split, poised', spelled, -, recorded, is⟩ := columnName proper poised run
  have changed : ∃ qualifiers, u.statement = { s.statement with qualifiers } := by
    rw [recorded]
    cases nameOwner? names star with
    | none => exact ⟨_, rfl⟩
    | some q => exact ⟨_, rfl⟩
  obtain ⟨qualifiers, changed⟩ := changed
  refine ⟨taken, later, qualifiers, split, poised', placeholders_name spelled.isNamePart, changed, fun x isColumn => ?_⟩
  obtain ⟨rfl, named⟩ := is x isColumn
  obtain ⟨init, front, t, rfl, rfl, isName⟩ := spelled.last
  exact ⟨spelled.isNamePart, init, t, rfl, isName, named t (by simp)⟩

end Poised

end SqlSharding.Sql
