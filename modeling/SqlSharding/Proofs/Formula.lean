import Mathlib
import SqlSharding.Sql.Statement

/-!
# Formulas

Boolean expressions over conditions on columns, as they are written in a `WHERE` clause. Their atoms are numbered by the
placeholders before them. What reading a formula leaves of its conditions follows from the formula whenever it is true.
-/

namespace SqlSharding.Sql

/-! ## Values -/

/-- A value as it is written in a condition. -/
inductive Literal where
  | integer (negative : Bool) (i : Int64)
  | float (negative : Bool) (x : Binary64)
  | string (s : String)
  | placeholder

namespace Literal

/-- The sign before a number. -/
def sign (negative : Bool) : List TokenKind := if negative then [.symbol .minus] else []

def kinds : Literal → List TokenKind
  | integer negative i => sign negative ++ [.integer i]
  | float negative x => sign negative ++ [.float x]
  | string s => [.string s]
  | placeholder => [.symbol .question]

def placeholders : Literal → Nat
  | placeholder => 1
  | _ => 0

/-- A value after some placeholders as an operand. -/
def operand (n : Nat) : Literal → Operand
  | integer negative i => .literal (.integer (if negative then -i else i))
  | float negative x => .literal (.float (if negative then x.neg else x))
  | string s => .literal (.text s)
  | placeholder => .placeholder n

/-- Values one after the other as operands. -/
def operands (n : Nat) : List Literal → List Operand
  | [] => []
  | v :: vs => v.operand n :: operands (n + v.placeholders) vs

end Literal

/-! ## Columns -/

/-- A name as it is written, with or without delimiters. -/
structure WrittenName where
  text : String
  quote : Option QuoteStyle

def WrittenName.kind (x : WrittenName) : TokenKind := x.quote.elim (.identifier x.text) (.quotedIdentifier x.text)

/-- A column as it is written: one name, or more of them with dots between. -/
structure WrittenColumn where
  first : WrittenName
  others : List WrittenName

namespace WrittenColumn

def kinds (c : WrittenColumn) : List TokenKind := c.first.kind :: c.others.flatMap fun x => [.symbol .dot, x.kind]

/-- The column of a dotted name: its last part is the name, and the part before that one is the qualifier. -/
def column (c : WrittenColumn) : Column :=
  match c.others.reverse with
  | [] => ⟨none, c.first.text⟩
  | [last] => ⟨some c.first.text, last.text⟩
  | last :: owner :: _ => ⟨some owner.text, last.text⟩

end WrittenColumn

/-! ## Atoms -/

/-- The comparisons of which nothing is kept. -/
inductive Comparison where
  | lt | le | gt | ge | ltGt | ne | nullSafeEq | like

def Comparison.kind : Comparison → TokenKind
  | lt => .symbol .lt
  | le => .symbol .le
  | gt => .symbol .gt
  | ge => .symbol .ge
  | ltGt => .symbol .ltGt
  | ne => .symbol .ne
  | nullSafeEq => .symbol .nullSafeEq
  | like => .keyword .like

/-- What an atom says: a condition that can be kept, or another comparison. -/
inductive Predicate where
  | condition (c : Condition)
  | comparison (column : Column) (op : Comparison) (operand : Operand)

inductive Atom where
  | equal (c : WrittenColumn) (v : Literal)
  | isIn (c : WrittenColumn) (v : Literal) (others : List Literal)
  | between (c : WrittenColumn) (lower upper : Literal)
  | compared (c : WrittenColumn) (op : Comparison) (v : Literal)

namespace Atom

def kinds : Atom → List TokenKind
  | equal c v => c.kinds ++ .symbol .eq :: v.kinds
  | isIn c v others => c.kinds ++ .keyword .in :: .symbol .leftParen :: v.kinds ++
      (others.flatMap fun w => .symbol .comma :: w.kinds) ++ [.symbol .rightParen]
  | between c lower upper => c.kinds ++ .keyword .between :: lower.kinds ++ .keyword .and :: upper.kinds
  | compared c op v => c.kinds ++ op.kind :: v.kinds

def values : Atom → List Literal
  | equal _ v => [v]
  | isIn _ v others => v :: others
  | between _ lower upper => [lower, upper]
  | compared _ _ v => [v]

def placeholders (a : Atom) : Nat := (a.values.map (·.placeholders)).sum

/-- What an atom after some placeholders says. -/
def predicate (n : Nat) : Atom → Predicate
  | equal c v => .condition ⟨c.column, .equal, [v.operand n]⟩
  | isIn c v others => .condition ⟨c.column, .isIn, Literal.operands n (v :: others)⟩
  | between c lower upper => .condition ⟨c.column, .between, Literal.operands n [lower, upper]⟩
  | compared c op v => .comparison c.column op (v.operand n)

end Atom

/-! ## Formulas -/

inductive Formula where
  | atom (a : Atom)
  /-- Parentheses that are written whether they are needed or not. -/
  | group (e : Formula)
  | not (e : Formula)
  | and (e f : Formula)
  | or (e f : Formula)

/-- How tight an operand must bind. -/
inductive Precedence where
  | disjunct
  | conjunct
  | negated
  deriving DecidableEq

namespace Formula

/-- Tokens in parentheses if they have to be. -/
def wrap (needed : Bool) (ks : List TokenKind) : List TokenKind :=
  if needed then .symbol .leftParen :: ks ++ [.symbol .rightParen] else ks

/-- How a formula is written as an operand: `NOT` binds tighter than `AND`, and `AND` tighter than `OR`. -/
def kinds : Precedence → Formula → List TokenKind
  | _, atom a => a.kinds
  | _, group e => wrap true (kinds .disjunct e)
  | _, not e => .keyword .not :: kinds .negated e
  | level, and e f => wrap (level = .negated) (kinds .conjunct e ++ .keyword .and :: kinds .conjunct f)
  | level, or e f => wrap (level ≠ .disjunct) (kinds .disjunct e ++ .keyword .or :: kinds .disjunct f)

def placeholders : Formula → Nat
  | atom a => a.placeholders
  | group e => e.placeholders
  | not e => e.placeholders
  | and e f => e.placeholders + f.placeholders
  | or e f => e.placeholders + f.placeholders

/-- Whether a formula after some placeholders is true, given which predicates are. -/
def Holds (truth : Predicate → Prop) : Nat → Formula → Prop
  | n, atom a => truth (a.predicate n)
  | n, group e => e.Holds truth n
  | n, not e => ¬ e.Holds truth n
  | n, and e f => e.Holds truth n ∧ f.Holds truth (n + e.placeholders)
  | n, or e f => e.Holds truth n ∨ f.Holds truth (n + e.placeholders)

/-- A formula without `NOT` and `OR`. -/
def IsConjunction : Formula → Prop
  | atom _ => True
  | group e => e.IsConjunction
  | not _ => False
  | and e f => e.IsConjunction ∧ f.IsConjunction
  | or _ _ => False

/-- The conditions among the atoms of a formula after some placeholders, in their order. -/
def conditions : Nat → Formula → List Condition
  | n, atom a =>
    match a.predicate n with
    | .condition c => [c]
    | .comparison .. => []
  | n, group e => e.conditions n
  | n, not e => e.conditions n
  | n, and e f => e.conditions n ++ f.conditions (n + e.placeholders)
  | n, or e f => e.conditions n ++ f.conditions (n + e.placeholders)

/-- What reading a formula after some placeholders makes of the conditions that were kept before. -/
def keep : Nat → Formula → Conditions → Conditions
  | n, atom a, cs =>
    match a.predicate n with
    | .condition c => cs.add c
    | .comparison .. => cs
  | n, group e, cs => e.keep n cs
  | _, not _, cs => cs
  | n, and e f, cs => f.keep (n + e.placeholders) (e.keep n cs)
  | n, or e f, cs => f.keep (n + e.placeholders) (e.keep n cs).markUnusable

/-- Nothing is kept any more once conditions are unusable. -/
theorem keep_markUnusable (e : Formula) (n : Nat) (cs : Conditions) : e.keep n cs.markUnusable = cs.markUnusable := by
  induction e generalizing n cs with
  | atom a =>
    rw [keep]
    cases a.predicate n with
    | condition c => rfl
    | comparison => rfl
  | group e ih => exact ih n cs
  | not e ih => rfl
  | and e f ihe ihf => rw [keep, ihe, ihf]
  | or e f ihe ihf => rw [keep, ihe, ihf]; rfl

/-- What is kept of a true formula is true. -/
theorem keep_sound {truth : Predicate → Prop} {e : Formula} {n : Nat} {cs : Conditions} (holds : e.Holds truth n)
    (before : ∀ c ∈ cs.entries, truth (.condition c)) : ∀ c ∈ (e.keep n cs).entries, truth (.condition c) := by
  induction e generalizing n cs with
  | atom a =>
    rw [Holds] at holds
    rw [keep]
    cases same : a.predicate n with
    | comparison => exact before
    | condition c =>
      rw [same] at holds
      intro c' member
      dsimp only at member
      rw [Conditions.add] at member
      split at member
      · rcases List.mem_append.mp member with old | new
        · exact before c' old
        · rwa [List.mem_singleton.mp new]
      · exact before c' member
  | group e ih => exact ih holds before
  | not e ih => exact before
  | and e f ihe ihf => exact ihf holds.2 (ihe holds.1 before)
  | or e f ihe ihf =>
    rw [keep, keep_markUnusable]
    exact fun _ member => nomatch member

/-- Of a formula without `NOT` and `OR` all conditions are kept. -/
theorem keep_conjunction {e : Formula} (isConjunction : e.IsConjunction) (n : Nat) (cs : List Condition) :
    e.keep n ⟨cs, true⟩ = ⟨cs ++ e.conditions n, true⟩ := by
  induction e generalizing n cs with
  | atom a =>
    rw [keep, conditions]
    cases a.predicate n with
    | condition c => rfl
    | comparison => simp
  | group e ih => exact ih isConjunction n cs
  | not e ih => exact isConjunction.elim
  | and e f ihe ihf => rw [keep, ihe isConjunction.1, ihf isConjunction.2, conditions, List.append_assoc]
  | or e f ihe ihf => exact isConjunction.elim

end Formula

end SqlSharding.Sql
