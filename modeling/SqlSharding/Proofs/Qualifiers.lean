import SqlSharding.Proofs.QueryLevels
import SqlSharding.Proofs.RecordedNames

/-!
# Qualifiers in the text

A column may be written with a qualifier before it, which is the part of a dotted name before the last one or before a star at its
end. The name of a table may have one, too, and an alias has none.
-/

namespace SqlSharding.Sql

/-! ## Qualifiers -/

/-- A part of a dotted name that qualifies its last part or the star at its end, given the tokens behind it. -/
inductive Qualifies (q : Token) : List Token → Prop
  | star {dot y : Token} {more : List Token} : q.kind.isIdentifier = true → dot.kind = .symbol .dot → y.kind = .symbol .star →
      Qualifies q (dot :: y :: more)
  | part {dot y : Token} {more : List Token} : q.kind.isIdentifier = true → dot.kind = .symbol .dot → y.kind.isIdentifier = true →
      ¬ BeginsWith [.symbol .dot] more → Qualifies q (dot :: y :: more)

variable {q : Token} {rest : List Token}

theorem Qualifies.isIdentifier (qualifies : Qualifies q rest) : q.kind.isIdentifier = true := by
  cases qualifies <;> assumption

theorem Qualifies.beginsWith (qualifies : Qualifies q rest) : BeginsWith [.symbol .dot] rest := by
  cases qualifies with
  | star _ isDot | part _ isDot => exact ⟨_, _, rfl, List.mem_singleton.mpr isDot⟩

theorem not_beginsWith_cons {k : TokenKind} {t : Token} {ts : List Token} (other : t.kind ≠ k) : ¬ BeginsWith [k] (t :: ts) := by
  rintro ⟨_, _, ⟨⟩, member⟩
  exact other (List.mem_singleton.mp member)

theorem BeginsWith.append {ks : List TokenKind} {ts : List Token} (begins : BeginsWith ks ts) (us : List Token) :
    BeginsWith ks (ts ++ us) := by
  obtain ⟨t, rest, rfl, member⟩ := begins
  exact ⟨t, rest ++ us, rfl, member⟩

/-- A token of two stretches of a text stands in the first one or in the second one. -/
theorem stands_of_append {ts us front back : List Token} (split : ts ++ us = front ++ q :: back) :
    (∃ mid, ts = front ++ q :: mid ∧ back = mid ++ us) ∨ ∃ pre, front = ts ++ pre ∧ us = pre ++ q :: back := by
  rcases List.append_eq_append_iff.mp split with ⟨pre, same, later⟩ | ⟨mid, same, later⟩
  · exact .inr ⟨pre, same, later⟩
  · rcases List.cons_eq_append_iff.mp later with ⟨rfl, rfl⟩ | ⟨mid, rfl, rfl⟩
    · exact .inr ⟨[], by simp [same], rfl⟩
    · exact .inl ⟨mid, same, rfl⟩

theorem stands_of_singleton {t : Token} {front back : List Token} (split : [t] = front ++ q :: back) : q = t ∧ back = [] := by
  cases front with
  | nil =>
    cases split
    exact ⟨rfl, rfl⟩
  | cons => simp at split

/-- What stands behind a part of a dotted name. Behind the part before the last one, or before a star, there is just the latter. -/
inductive BehindPart (q : Token) (names : List Token) (star : Bool) : List Token → Prop
  | last : star = false → names.getLast? = some q → BehindPart q names star []
  | owner {dot y : Token} : nameOwner? names star = some q → (y.kind = .symbol .star → star = true) → BehindPart q names star [dot, y]
  | inner {dot y : Token} {more : List Token} : y.kind ≠ .symbol .star → BeginsWith [.symbol .dot] more →
      BehindPart q names star (dot :: y :: more)

/-- Two more tokens behind a name end it if the part was its last one. -/
theorem BehindPart.of_append {ts names names' front back : List Token} {star : Bool} {dot y : Token}
    (isName : q.kind.isIdentifier = true) (isDot : dot.kind = .symbol .dot)
    (behind : ∀ back, ts = front ++ q :: back → BehindPart q names false back) (owner : nameOwner? names' star = names.getLast?)
    (isStar : y.kind = .symbol .star → star = true) (isLast : y.kind.isIdentifier = true → star = false ∧ names'.getLast? = some y)
    (split : ts ++ [dot, y] = front ++ q :: back) : BehindPart q names' star back := by
  rcases stands_of_append split with ⟨mid, isFirst, rfl⟩ | ⟨pre, rfl, isSecond⟩
  · cases behind mid isFirst with
    | last _ same => exact .owner (owner.trans same) isStar
    | owner same noStar => exact .inner (fun star => Bool.false_ne_true (noStar star)) ⟨dot, [y], rfl, List.mem_singleton.mpr isDot⟩
    | inner noStar goesOn => exact .inner noStar (goesOn.append _)
  · rcases pre with _ | ⟨x, _ | ⟨z, pre⟩⟩
    · cases isSecond
      rw [isDot] at isName
      cases isName
    · cases isSecond
      exact .last (isLast isName).1 (isLast isName).2
    · simp at isSecond

theorem NameSpelled.behindPart {ts names front back : List Token} {star : Bool} (spelled : NameSpelled ts names star)
    (isName : q.kind.isIdentifier = true) (split : ts = front ++ q :: back) : BehindPart q names star back := by
  induction spelled generalizing back with
  | first =>
    cases front with
    | nil =>
      cases split
      exact .last rfl rfl
    | cons x front => simp at split
  | part spelled isDot isPart ih =>
    refine .of_append isName isDot (fun back => ih) (by simp [nameOwner?]) (fun isStar => ?_) (fun _ => ⟨rfl, by simp⟩) split
    rw [isStar] at isPart
    cases isPart
  | star spelled isDot isStar ih =>
    refine .of_append isName isDot (fun back => ih) rfl (fun _ => rfl) (fun isPart => ?_) split
    rw [isStar] at isPart
    cases isPart

/-- Of a dotted name only the owner qualifies, whatever follows the name. -/
theorem NameSpelled.owner_of_qualifies {ts names front back later : List Token} {star : Bool} (spelled : NameSpelled ts names star)
    (ends : star = false → ¬ BeginsWith [.symbol .dot] later) (split : ts = front ++ q :: back)
    (qualifies : Qualifies q (back ++ later)) : nameOwner? names star = some q := by
  cases spelled.behindPart qualifies.isIdentifier split with
  | last noStar _ => exact absurd qualifies.beginsWith (ends noStar)
  | owner same _ => exact same
  | inner noStar goesOn =>
    cases qualifies with
    | star _ _ isStar => exact absurd isStar noStar
    | part _ _ _ ends => exact absurd (goesOn.append later) ends

/-! ## Tables and aliases -/

variable {d : Dialect} {p : Place} {before left later taken : List Token} {s u : WalkState}

/-- The tokens of an alias, if there is one. -/
inductive AliasText : List Token → Prop
  | none : AliasText []
  | bare {t : Token} : t.kind.isIdentifier = true → AliasText [t]
  | as {word t : Token} : word.kind = .keyword .as → t.kind.isIdentifier = true → AliasText [word, t]

/-- The tokens of the name of a table, which a schema may precede. -/
inductive TableText (t : Token) : List Token → Prop
  | bare : t.kind.isIdentifier = true → TableText t [t]
  | schema {schema dot : Token} : schema.kind.isIdentifier = true → dot.kind = .symbol .dot → t.kind.isIdentifier = true →
      TableText t [schema, dot, t]

theorem AliasText.not_beginsWith (isAlias : AliasText taken) (ends : ¬ BeginsWith [.symbol .dot] later) :
    ¬ BeginsWith [.symbol .dot] (taken ++ later) := by
  cases isAlias with
  | none => exact ends
  | bare isName =>
    refine not_beginsWith_cons fun isDot => ?_
    rw [isDot] at isName
    cases isName
  | as isWord => exact not_beginsWith_cons (TokenKind.ne_symbol_of_keyword isWord)

/-- No token of an alias qualifies anything. -/
theorem AliasText.not_qualifies {front back : List Token} (isAlias : AliasText taken) (ends : ¬ BeginsWith [.symbol .dot] later)
    (split : taken = front ++ q :: back) : ¬ Qualifies q (back ++ later) := by
  intro qualifies
  cases isAlias with
  | none => simp at split
  | bare isName =>
    obtain ⟨-, rfl⟩ := stands_of_singleton split
    exact ends qualifies.beginsWith
  | @as word t isWord isName =>
    rcases front with _ | ⟨x, _ | ⟨y, front⟩⟩
    · cases split
      have noName := qualifies.isIdentifier
      rw [isWord] at noName
      cases noName
    · cases split
      exact ends qualifies.beginsWith
    · simp at split

/-- Of the tokens of a table's name only the schema qualifies something, the name itself. -/
theorem TableText.schema_of_qualifies {t : Token} {front back : List Token} (isTable : TableText t taken)
    (ends : ¬ BeginsWith [.symbol .dot] later) (split : taken = front ++ q :: back) (qualifies : Qualifies q (back ++ later)) :
    ∃ dot, back = [dot, t] := by
  cases isTable with
  | bare =>
    obtain ⟨-, rfl⟩ := stands_of_singleton split
    exact absurd qualifies.beginsWith ends
  | @schema schema dot _ isDot =>
    rcases front with _ | ⟨x, _ | ⟨y, _ | ⟨z, front⟩⟩⟩
    · cases split
      exact ⟨dot, rfl⟩
    · cases split
      have noName := qualifies.isIdentifier
      rw [isDot] at noName
      cases noName
    · cases split
      exact absurd qualifies.beginsWith ends
    · simp at split

namespace Poised

variable (proper : Proper left) (poised : Poised d p before left s)

include proper poised

theorem alias? {a? : Option String} (run : Walk.alias? s = .ok a? u) :
    ∃ taken later, Passed d p before left s taken later u ∧ AliasText taken := by
  obtain ⟨isAs, s₁, eats, more⟩ := Walk.bind_eq_ok_iff.mp run
  have eaten := poised.eat proper rfl eats
  cases isAs with
  | true =>
    obtain ⟨word, mid, passed, isWord⟩ := eaten
    obtain ⟨x, s₂, names, more⟩ := Walk.bind_eq_ok_iff.mp more
    obtain ⟨rfl, rfl⟩ := Walk.pure_eq_ok_iff.mp more
    obtain ⟨t, later, passed', isName, rfl⟩ := passed.poised.identifier (passed.proper proper) names
    exact ⟨_, later, passed.trans passed', .as isWord isName⟩
  | false =>
    obtain rfl : s₁ = s := eaten
    have none : ∃ taken later, Passed d p before left s₁ taken later s₁ ∧ AliasText taken := ⟨[], left, .refl poised, .none⟩
    obtain ⟨k, _, ⟨⟩, ending⟩ := Walk.bind_eq_ok_iff.mp more
    split at ending
    · obtain ⟨isLock, s₂, looks, last⟩ := Walk.bind_eq_ok_iff.mp ending
      obtain ⟨rfl, -⟩ := Walk.atLock_stays looks
      split at last
      · obtain ⟨rfl, rfl⟩ := Walk.pure_eq_ok_iff.mp last
        exact none
      · obtain ⟨x, s₃, names, last⟩ := Walk.bind_eq_ok_iff.mp last
        obtain ⟨rfl, rfl⟩ := Walk.pure_eq_ok_iff.mp last
        obtain ⟨t, later, passed, isName, rfl⟩ := poised.identifier proper names
        exact ⟨[t], later, passed, .bare isName⟩
    · obtain ⟨rfl, rfl⟩ := Walk.pure_eq_ok_iff.mp ending
      exact none

theorem qualifiedName {x : Identifier} (run : Walk.qualifiedName s = .ok x u) :
    ∃ t taken later, Passed d p before left s taken later u ∧ TableText t taken ∧ x = .ofToken t := by
  obtain ⟨first, s₁, names, run⟩ := Walk.bind_eq_ok_iff.mp run
  obtain ⟨t, mid, passed, isName, rfl⟩ := poised.identifier proper names
  obtain ⟨isDotted, s₂, eats, ending⟩ := Walk.bind_eq_ok_iff.mp run
  have eaten := passed.poised.eat (passed.proper proper) rfl eats
  cases isDotted with
  | false =>
    obtain rfl : s₂ = s₁ := eaten
    obtain ⟨rfl, rfl⟩ := Walk.pure_eq_ok_iff.mp ending
    exact ⟨t, [t], mid, passed, .bare isName, rfl⟩
  | true =>
    obtain ⟨dot, mid', passed', isDot⟩ := eaten
    have both := passed.trans passed'
    obtain ⟨y, later, passed'', isName', rfl⟩ := both.poised.identifier (both.proper proper) ending
    exact ⟨y, [t] ++ [dot] ++ [y], later, both.trans passed'', .schema isName isDot isName', rfl⟩

end Poised

end SqlSharding.Sql
