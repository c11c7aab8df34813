import SqlSharding.Proofs.Companion
import SqlSharding.Proofs.Formula
import SqlSharding.Proofs.Views

/-!
# Reading values, columns and expressions

The smallest parts of a text are read as they are written. An expression is passed over the columns and the other tokens
that it is made of, up to what ends it.
-/

namespace SqlSharding.Sql

/-! ## Kinds of tokens -/

/-- The first of some kinds, or the end of the text. -/
def firstKind (ks : List TokenKind) : TokenKind := ks.head?.getD .endOfInput

/-- The tokens of comparisons and values. -/
def TokenKind.isOperand : TokenKind → Bool
  | integer _ => true
  | float _ => true
  | string _ => true
  | symbol s => s ∈ [.question, .minus, .lt, .le, .gt, .ge, .ltGt, .ne, .nullSafeEq]
  | keyword k => k = .like
  | _ => false

/-- The words at which a join can begin. -/
def joinStarts : List Keyword := [.join, .inner, .cross, .natural, .full, .straightJoin, .left, .right]

/-- Tokens that are passed by themselves in an expression that they do not end. -/
def TokenKind.isPassed : TokenKind → Bool
  | integer _ => true
  | float _ => true
  | string _ => true
  | symbol s => s ∉ [.leftParen, .rightParen, .semicolon, .dot]
  | keyword w => w ∉ .case :: .in :: joinStarts
  | _ => false

/-- What tokens are not that are passed by themselves. -/
structure TokenKind.Passes (k : TokenKind) : Prop where
  inside : k.endsEverything = false
  noJoin : ∀ w ∈ joinStarts, k ≠ .keyword w
  noName : k.isIdentifier = false
  noGroup : k ≠ .symbol .leftParen
  noCase : k ≠ .keyword .case

namespace TokenKind

variable {k : TokenKind}

theorem passes_of_isPassed (passed : k.isPassed = true) : k.Passes := by
  cases k with
  | keyword w =>
    have other : w ∉ .case :: .in :: joinStarts := of_decide_eq_true passed
    refine ⟨rfl, ?_, rfl, nofun, ?_⟩
    · rintro w' starts ⟨⟩
      exact other (List.mem_cons_of_mem _ (List.mem_cons_of_mem _ starts))
    · rintro ⟨⟩
      exact other List.mem_cons_self
  | symbol s =>
    have other : s ∉ [.leftParen, .rightParen, .semicolon, .dot] := of_decide_eq_true passed
    have differs {s' : Symbol} (member : s' ∈ [Symbol.leftParen, .rightParen, .semicolon, .dot]) : s ≠ s' :=
      fun same => other (same ▸ member)
    refine ⟨?_, nofun, rfl, fun same => differs (by decide) (symbol.inj same), nofun⟩
    cases s with
    | rightParen | semicolon => exact absurd rfl (differs (by decide))
    | _ => rfl
  | integer | float | string => exact ⟨rfl, nofun, rfl, nofun, nofun⟩
  | _ => cases passed

theorem isPassed_of_isOperand (isOperand : k.isOperand = true) : k.isPassed = true := by
  cases k with
  | integer | float | string => rfl
  | symbol s => cases s <;> first | rfl | cases isOperand
  | keyword w =>
    obtain rfl : w = .like := of_decide_eq_true isOperand
    rfl
  | _ => cases isOperand

end TokenKind

theorem Literal.isOperand_of_mem {v : Literal} {k : TokenKind} (member : k ∈ v.kinds) : k.isOperand = true := by
  cases v with
  | integer negative | float negative =>
    cases negative with
    | false =>
      obtain rfl := List.mem_singleton.mp member
      rfl
    | true =>
      rcases List.mem_cons.mp member with rfl | member
      · rfl
      · obtain rfl := List.mem_singleton.mp member
        rfl
  | string | placeholder =>
    obtain rfl := List.mem_singleton.mp member
    rfl

theorem Literal.foldl_countAfter (v : Literal) (n : Nat) : v.kinds.foldl Cursor.countAfter n = n + v.placeholders := by
  cases v with
  | integer negative | float negative => cases negative <;> rfl
  | string | placeholder => rfl

theorem WrittenColumn.foldl_countAfter (c : WrittenColumn) (n : Nat) : c.kinds.foldl Cursor.countAfter n = n := by
  have name (x : WrittenName) (n : Nat) : Cursor.countAfter n x.kind = n := by
    obtain ⟨text, quote⟩ := x
    cases quote <;> rfl
  obtain ⟨first, others⟩ := c
  rw [kinds, List.foldl_cons, name]
  induction others with
  | nil => rfl
  | cons x others ih =>
    rw [List.flatMap_cons, List.foldl_append, List.foldl_cons, List.foldl_cons, List.foldl_nil, name]
    exact ih

/-! ## Parts of expressions -/

/-- A part of an expression: a column, or a token by itself. -/
inductive Piece where
  | column (c : WrittenColumn)
  | token (k : TokenKind)

namespace Piece

def kinds : Piece → List TokenKind
  | column c => c.kinds
  | token k => [k]

/-- Whether an expression goes on over a part. -/
def GoesOn (ends : TokenKind → Bool) : Piece → Prop
  | column c => ends c.first.kind = false
  | token k => k.isPassed = true ∧ ends k = false

theorem flatMap_token (ks : List TokenKind) : (ks.map token).flatMap kinds = ks := by
  rw [List.flatMap_map]
  exact List.flatMap_singleton' ks

end Piece

/-- What neither goes on with a column nor makes a locking clause of it. -/
structure TokenKind.LeavesColumn (k : TokenKind) : Prop where
  noDot : k ≠ .symbol .dot
  noIn : k ≠ .keyword .in

/-- What begins the parts of an expression, or ends it. -/
theorem leavesColumn_pieces {ends : TokenKind → Bool} {rest : List TokenKind} {pieces : List Piece}
    (goOn : ∀ x ∈ pieces, x.GoesOn ends) (leaves : (firstKind rest).LeavesColumn) :
    (firstKind (pieces.flatMap Piece.kinds ++ rest)).LeavesColumn := by
  cases pieces with
  | nil => exact leaves
  | cons x pieces =>
    cases x with
    | column c =>
      obtain ⟨⟨text, quote⟩, others⟩ := c
      cases quote <;> exact ⟨nofun, nofun⟩
    | token k =>
      have passed : k.isPassed = true := (goOn _ List.mem_cons_self).1
      constructor <;> rintro (rfl : k = _) <;> cases passed

namespace Walk.Reaches

variable {d : Dialect} {p : Place} {text : List Token} (proper : Proper text) {n : Nat} {rest : List TokenKind}
  {cs : Conditions}

include proper

/-! ## Values and columns -/

theorem value (v : Literal) :
    Reaches d p text value? ⟨n, v.kinds ++ rest, cs⟩ (· = some (v.operand n)) ⟨n + v.placeholders, rest, cs⟩ := by
  have passed {k : TokenKind} {ks : List TokenKind} {x : Option Operand} : Reaches d p text (do discard Walk.advance; return x)
      ⟨n, k :: ks, cs⟩ (· = x) ⟨Cursor.countAfter n k, ks, cs⟩ := (advance proper).discarded.seq (.pure rfl)
  cases v with
  | integer negative i =>
    cases negative with
    | false => exact kind.seq passed
    | true => exact kind.seq ((advance proper).discarded.seq (kind.seq passed))
  | float negative x =>
    cases negative with
    | false => exact kind.seq passed
    | true => exact kind.seq ((advance proper).discarded.seq (kind.seq passed))
  | string s => exact kind.seq passed
  | placeholder => exact kind.seq (parameterIndex.seq passed)

theorem identifier (x : WrittenName) :
    Reaches d p text Walk.identifier ⟨n, x.kind :: rest, cs⟩ (·.name = x.text) ⟨n, rest, cs⟩ := by
  obtain ⟨name, quote⟩ := x
  have named (t : Token) (same : t.kind = WrittenName.kind ⟨name, quote⟩) : (Identifier.ofToken t).name = name := by
    rw [Identifier.ofToken, same]
    cases quote <;> rfl
  cases quote <;> exact kind.seq (.yes rfl ((advance proper).map named))

/-- The parts of a dotted name. -/
theorem nameParts (first : WrittenName) (others : List WrittenName) {x : Identifier} (named : x.name = first.text)
    (ends : (View.mk n rest cs).kind ≠ .symbol .dot) :
    Reaches d p text (Walk.nameParts x) ⟨n, (others.flatMap fun y => [.symbol .dot, y.kind]) ++ rest, cs⟩
      (fun r => r.1.map (·.name) = first.text :: others.map (·.text) ∧ r.2 = false) ⟨n, rest, cs⟩ := by
  refine repeatFrom proper fun fuel long => ?_
  have enough : others.length < fuel := by
    simp only [List.length_append, List.length_flatMap] at long
    simp at long
    omega
  clear long
  refine mono (Q := fun r => r.1.map (·.name) = [x].map (·.name) ++ others.map (·.text) ∧ r.2 = false) ?_
    fun r holds => ⟨by rw [holds.1, ← named]; rfl, holds.2⟩
  generalize [x] = parts
  induction others generalizing fuel parts with
  | nil =>
    obtain ⟨fuel, rfl⟩ : ∃ k, fuel = k + 1 := ⟨fuel - 1, by simp at enough; omega⟩
    have noDot : (View.mk n rest cs).kind.sameShape (.symbol .dot) = false :=
      Bool.eq_false_iff.mpr fun same => ends (TokenKind.sameShape_symbol.mp same)
    refine seq (a := (false, parts, false)) (w := ⟨n, rest, cs⟩) ?_ ?_
    · exact (eat_not noDot).seq (.no Bool.false_ne_true (.pure rfl))
    · exact .pure ⟨by simp, rfl⟩
  | cons y others ih =>
    obtain ⟨fuel, rfl⟩ : ∃ k, fuel = k + 1 := ⟨fuel - 1, by simp at enough; omega⟩
    have isName : y.kind.isIdentifier = true := by
      obtain ⟨name, quote⟩ := y
      cases quote <;> rfl
    have round : Reaches d p text (do
        if ← Walk.eat (.symbol .dot) then
          let k ← Walk.kind
          if k.isIdentifier then
            let part ← Walk.identifier
            return (true, parts ++ [part], false)
          else if k = .symbol .star then
            discard Walk.advance
            return (false, parts, true)
          else failExpected .identifier
        else return (false, parts, false))
        ⟨n, .symbol .dot :: y.kind :: (others.flatMap fun y => [.symbol .dot, y.kind]) ++ rest, cs⟩
        (fun r => r.1 = true ∧ r.2.1.map (·.name) = parts.map (·.name) ++ [y.text] ∧ r.2.2 = false)
        ⟨n, (others.flatMap fun y => [.symbol .dot, y.kind]) ++ rest, cs⟩ := by
      refine (eat proper rfl).seq (.yes rfl (kind.seq (.yes isName ?_)))
      exact (identifier proper y).bind fun part named => .pure ⟨rfl, by simp [named], rfl⟩
    refine round.bind ?_
    rintro ⟨_, parts', _⟩ ⟨rfl, named, rfl⟩
    have shorter : others.length < fuel := by
      simp at enough
      omega
    refine .yes rfl (mono (ih fuel shorter parts') fun r holds => ⟨?_, holds.2⟩)
    rw [holds.1, named]
    simp

/-- A column. -/
theorem column (c : WrittenColumn) (ends : (View.mk n rest cs).kind ≠ .symbol .dot) :
    Reaches d p text Walk.column ⟨n, c.kinds ++ rest, cs⟩ (· = some c.column) ⟨n, rest, cs⟩ := by
  refine (identifier proper c.first).bind fun first named => ?_
  refine (nameParts proper c.first c.others named ends).bind ?_
  rintro ⟨parts, star⟩ ⟨named, rfl⟩
  refine .no Bool.false_ne_true ?_
  have reversed : parts.reverse.map (·.name) = c.others.reverse.map (·.text) ++ [c.first.text] := by
    rw [List.map_reverse, named]
    simp
  rw [WrittenColumn.column]
  generalize c.others.reverse = names at reversed
  cases partsAre : parts.reverse with
  | nil => simp [partsAre] at reversed
  | cons last before =>
    rw [partsAre] at reversed
    cases before with
    | nil =>
      cases names with
      | nil =>
        refine .pure ?_
        simp at reversed
        rw [reversed]
      | cons name names => simp at reversed
    | cons owner before =>
      refine (record cs fun s same => same).seq (.pure ?_)
      cases names with
      | nil => simp at reversed
      | cons name names =>
        cases names with
        | nil =>
          simp at reversed
          rw [reversed.1, reversed.2.1]
        | cons name' names =>
          simp at reversed
          rw [reversed.1, reversed.2.1]

/-! ## Expressions -/

theorem atLock_noIn {k : TokenKind} (noIn : firstKind rest ≠ .keyword .in) :
    Reaches d p text Walk.atLock ⟨n, k :: rest, cs⟩ (· = false) ⟨n, k :: rest, cs⟩ := by
  refine kind.seq ?_
  cases isLock : (View.mk n (k :: rest) cs).kind.isWord "LOCK" with
  | false => exact .no Bool.false_ne_true (.pure rfl)
  | true => exact .yes rfl ((peek proper).seq (.pure (decide_eq_false noIn)))

omit proper in
theorem atLock_noName {k : TokenKind} (noName : k.isIdentifier = false) :
    Reaches d p text Walk.atLock ⟨n, k :: rest, cs⟩ (· = false) ⟨n, k :: rest, cs⟩ := by
  refine kind.seq (.no ?_ (.pure rfl))
  cases k with
  | identifier name => cases noName
  | _ => exact Bool.false_ne_true

omit proper in
theorem atJoin_no {k : TokenKind} (noJoin : ∀ w ∈ joinStarts, k ≠ .keyword w) :
    Reaches d p text Walk.atJoin ⟨n, k :: rest, cs⟩ (· = false) ⟨n, k :: rest, cs⟩ := by
  refine kind.seq ?_
  cases k with
  | keyword w =>
    have other {w' : Keyword} (starts : w' ∈ joinStarts) : w ≠ w' := fun same => noJoin w' starts (congrArg _ same)
    refine .no ?_ (.no ?_ (.pure rfl))
    · exact fun member => other (List.mem_append_left [.left, .right] member) rfl
    · simp [other (show Keyword.left ∈ joinStarts by decide), other (show Keyword.right ∈ joinStarts by decide)]
  | _ => exact .pure rfl

theorem depth {v : View} : Reaches d p text Walk.depth v (4 * v.kinds.length < ·) v := by
  rintro s ⟨ts, suffix, atCursor, kinds, same⟩
  refine ⟨_, s, rfl, ?_, ts, suffix, atCursor, kinds, same⟩
  rw [atCursor, Cursor.along_remaining fun t member => proper t (suffix.subset member), ← kinds, List.length_map]
  omega

/-- An expression goes on over columns and tokens up to its end. -/
theorem expressionPieces {ends : TokenKind → Bool} (depth : Nat) (pieces : List Piece) (goOn : ∀ x ∈ pieces, x.GoesOn ends)
    (ended : ((firstKind rest).endsEverything || ends (firstKind rest)) = true) (leaves : (firstKind rest).LeavesColumn) (n : Nat)
    (cs : Conditions) :
    Reaches d p text (Walk.expressionWithin (depth + 1) ends) ⟨n, pieces.flatMap Piece.kinds ++ rest, cs⟩ (· = ())
      ⟨(pieces.flatMap Piece.kinds).foldl Cursor.countAfter n, rest, cs⟩ := by
  rw [Walk.expressionWithin]
  induction pieces generalizing n with
  | nil => exact repeatWhile_stops (kind.seq (.yes ended (.pure rfl)))
  | cons x pieces ih =>
    have later : ∀ y ∈ pieces, y.GoesOn ends := fun y member => goOn y (List.mem_cons_of_mem x member)
    have leaves' := leavesColumn_pieces later leaves
    rw [List.flatMap_cons, List.append_assoc, List.foldl_append]
    cases x with
    | column c =>
      obtain ⟨first, others⟩ := c
      have notEnded : ends first.kind = false := goOn _ List.mem_cons_self
      rw [Piece.kinds, WrittenColumn.foldl_countAfter]
      refine repeatWhile_again proper ?_ (by simp [WrittenColumn.kinds]) (ih later n)
      generalize pieces.flatMap Piece.kinds ++ rest = more at leaves' ⊢
      have noIn : firstKind ((others.flatMap fun x => [.symbol .dot, x.kind]) ++ more) ≠ .keyword .in := by
        cases others with
        | nil => exact leaves'.noIn
        | cons => exact nofun
      have passed : Reaches d p text Walk.column ⟨n, WrittenColumn.kinds ⟨first, others⟩ ++ more, cs⟩
          (· = some (WrittenColumn.column ⟨first, others⟩)) ⟨n, more, cs⟩ := column proper ⟨first, others⟩ leaves'.noDot
      obtain ⟨inside, isName, noWord, noGroup⟩ : first.kind.endsEverything = false ∧ first.kind.isIdentifier = true ∧
          (∀ w, first.kind ≠ .keyword w) ∧ first.kind ≠ .symbol .leftParen := by
        obtain ⟨name, quote⟩ := first
        cases quote <;> exact ⟨rfl, rfl, nofun, nofun⟩
      refine kind.seq (.no (by simp [View.kind, WrittenColumn.kinds, inside, notEnded]) ?_)
      refine (atJoin_no fun w _ => noWord w).seq (.no Bool.false_ne_true ?_)
      refine (atLock_noIn proper noIn).seq (.no Bool.false_ne_true ?_)
      exact .no noGroup (.no (noWord .case) (.yes isName (passed.discarded.seq (.pure rfl))))
    | token k =>
      obtain ⟨passed, notEnded⟩ : k.isPassed = true ∧ ends k = false := goOn _ List.mem_cons_self
      have passes := TokenKind.passes_of_isPassed passed
      refine repeatWhile_again proper ?_ (by simp [Piece.kinds]) (ih later (Cursor.countAfter n k))
      refine kind.seq (.no (by simp [View.kind, Piece.kinds, passes.inside, notEnded]) ?_)
      refine (atJoin_no passes.noJoin).seq (.no Bool.false_ne_true ?_)
      refine (atLock_noName passes.noName).seq (.no Bool.false_ne_true ?_)
      refine .no passes.noGroup (.no passes.noCase (.no (by simp [View.kind, Piece.kinds, passes.noName]) ?_))
      exact (advance proper).discarded.seq (.pure rfl)

end Walk.Reaches

end SqlSharding.Sql
