import SqlSharding.Proofs.Literals
import SqlSharding.Proofs.Splices

/-!
# Bound keys

A generated key becomes one more element of the column list and of the row. Where a statement has parameters the key is bound
to a placeholder of its own, and all other placeholders keep their values; otherwise it is written as a literal.
-/

namespace SqlSharding

open Text

namespace Sql

/-! ## Values of placeholders -/

/-- The values that tokens of some kinds take from parameters: placeholders take one after the other, and other tokens none. -/
def slots : List TokenKind → List Value → List (Option Value)
  | [], _ => []
  | k :: ks, vs => if k = .symbol .question then vs.head? :: slots ks vs.tail else none :: slots ks vs

/-- Two kinds of which both or none are placeholders. -/
def SameSlot (k l : TokenKind) : Prop := k = .symbol .question ↔ l = .symbol .question

variable {k : TokenKind} {ks ls : List TokenKind} {vs ws : List Value}

theorem length_slots (ks : List TokenKind) (vs : List Value) : (slots ks vs).length = ks.length := by
  induction ks generalizing vs with
  | nil => rfl
  | cons k ks ih =>
    rw [slots]
    split <;> rw [List.length_cons, List.length_cons, ih]

theorem slots_append (ks ls : List TokenKind) (vs : List Value) :
    slots (ks ++ ls) vs = slots ks vs ++ slots ls (vs.drop (ks.count (.symbol .question))) := by
  induction ks generalizing vs with
  | nil => rfl
  | cons k ks ih =>
    by_cases isQuestion : k = .symbol .question
    · rw [List.cons_append, slots, slots, if_pos isQuestion, if_pos isQuestion, ih, isQuestion, List.count_cons_self,
        List.drop_tail, List.cons_append]
    · rw [List.cons_append, slots, slots, if_neg isQuestion, if_neg isQuestion, ih, List.count_cons_of_ne isQuestion,
        List.cons_append]

/-- Parameters beyond the last placeholder are not taken. -/
theorem slots_of_enough (enough : ks.count (.symbol .question) ≤ vs.length) : slots ks (vs ++ ws) = slots ks vs := by
  induction ks generalizing vs with
  | nil => rfl
  | cons k ks ih =>
    by_cases isQuestion : k = .symbol .question
    · rw [isQuestion, List.count_cons_self] at enough
      obtain ⟨v, vs, rfl⟩ := List.exists_cons_of_length_pos (Nat.lt_of_lt_of_le (Nat.succ_pos _) enough)
      rw [slots, slots, if_pos isQuestion, if_pos isQuestion, List.cons_append, List.tail_cons, List.tail_cons,
        ih (Nat.le_of_succ_le_succ enough)]
      rfl
    · rw [List.count_cons_of_ne isQuestion] at enough
      rw [slots, slots, if_neg isQuestion, if_neg isQuestion, ih enough]

theorem slots_congr (same : List.Forall₂ SameSlot ks ls) (vs : List Value) : slots ks vs = slots ls vs := by
  induction same generalizing vs with
  | nil => rfl
  | @cons k l ks ls both _ ih =>
    by_cases isQuestion : k = .symbol .question
    · rw [slots, slots, if_pos isQuestion, if_pos (both.mp isQuestion), ih]
    · rw [slots, slots, if_neg isQuestion, if_neg fun is => isQuestion (both.mpr is), ih]

theorem count_congr (same : List.Forall₂ SameSlot ks ls) :
    ks.count (.symbol .question) = ls.count (.symbol .question) := by
  induction same with
  | nil => rfl
  | @cons k l ks ls both _ ih =>
    by_cases isQuestion : k = .symbol .question
    · rw [isQuestion, both.mp isQuestion, List.count_cons_self, List.count_cons_self, ih]
    · rw [List.count_cons_of_ne isQuestion, List.count_cons_of_ne fun is => isQuestion (both.mpr is), ih]

theorem count_kinds (ts : List Token) : (ts.map (·.kind)).count (.symbol .question) = placeholders ts := by
  rw [List.count_eq_countP, List.countP_map]
  rfl

/-- A placeholder and its parameter between others leave the values of the others as they are. -/
theorem slots_insert {front middle back : List TokenKind} {slot : Nat} (v : Value) (other : k ≠ .symbol .question)
    (counted : (front ++ middle).count (.symbol .question) = slot) (enough : slot ≤ vs.length) :
    slots (front ++ [.symbol .comma, k] ++ middle ++ [.symbol .comma, .symbol .question] ++ back)
        (vs.take slot ++ v :: vs.drop slot) =
      slots front vs ++ [none, none] ++ slots middle (vs.drop (front.count (.symbol .question))) ++ [none, some v] ++
        slots back (vs.drop slot) := by
  have length : (vs.take slot).length = slot := by rw [List.length_take, Nat.min_eq_left enough]
  rw [List.count_append] at counted
  have first : slots front (vs.take slot ++ v :: vs.drop slot) = slots front vs := by
    conv_rhs => rw [← List.take_append_drop slot vs]
    rw [slots_of_enough (by omega), slots_of_enough (by omega)]
  have second : slots middle ((vs.take slot ++ v :: vs.drop slot).drop (front.count (.symbol .question))) =
      slots middle (vs.drop (front.count (.symbol .question))) := by
    conv_rhs => rw [← List.take_append_drop slot vs]
    rw [List.drop_append_of_le_length (by omega), List.drop_append_of_le_length (by omega),
      slots_of_enough (by rw [List.length_drop]; omega), slots_of_enough (by rw [List.length_drop]; omega)]
  have third : (vs.take slot ++ v :: vs.drop slot).drop slot = v :: vs.drop slot := List.drop_left' length
  have fourth : (vs.take slot ++ v :: vs.drop slot).drop (slot + 1) = vs.drop slot := by
    rw [← List.drop_drop, third, List.drop_one, List.tail_cons]
  have added : ([.symbol .comma, k] : List TokenKind).count (.symbol .question) = 0 := List.count_eq_zero.mpr (by simp [Ne.symm other])
  rw [slots_append, slots_append _ [.symbol .comma, .symbol .question], slots_append _ middle, slots_append front]
  simp only [List.count_append, added, Nat.add_zero, counted, first, second, third]
  rw [show ([.symbol .comma, .symbol .question] : List TokenKind).count (.symbol .question) = 1 from rfl, fourth]
  simp [slots, other]

/-! ## Names without quotes -/

/-- A word that reads as a name without quotes. -/
def IsBareName (d : Dialect) (name : String) : Prop :=
  ∃ c tail, name.toList = c :: tail ∧ isWordStart c = true ∧ (∀ x ∈ tail, isWordPart x = true) ∧ Keyword.ofWord? d name = none

/-- A bare name is spelled by itself before anything that does not go on it. -/
theorem IsBareName.spells {d : Dialect} {name : String} (bare : IsBareName d name) {r : List Char}
    (ends : r.head?.any isWordPart = false) : Spells d name.toList r (.identifier name) := by
  obtain ⟨c, tail, split, starts, parts, noKeyword⟩ := bare
  have same : name = String.ofList (c :: tail) := by rw [← split, String.ofList_toList]
  rw [same] at noKeyword ⊢
  rw [String.toList_ofList]
  exact spells_word starts parts ends noKeyword

theorem IsBareName.startsWord {d : Dialect} {name : String} (bare : IsBareName d name) : startsWord name.toList = true := by
  obtain ⟨c, tail, split, starts, -⟩ := bare
  rw [split]
  exact starts

end Sql

namespace Rewrite

open Sql

namespace Target

variable {d : Dialect} {p : Place} {ts : List Token} {points : List RewritePoint} {target : Target} {usesPlaceholder : Bool}
  {literal : List TokenKind}

/-! ## Names with suffixes -/

/-- A target that gives tables their own names with suffixes, and bounds no new numbers. -/
structure Suffixes (target : Target) : Prop where
  tables : ∀ name physical, target.physicalTable? name = some physical →
    ∃ name' k, Text.sameName name name' = true ∧ IsSuffix k ∧ physical = suffixed name' k
  rowCount : target.rowCount = none
  offset : target.offset = none

/-- A name with a suffix can take the place of the name of a table. -/
theorem fits_of_suffixed {source : List Char} {name name' k : String} {quote : Option QuoteStyle}
    (same : Text.sameName name name' = true) (suffix : IsSuffix k) :
    Exchange.Fits d source (quote.elim (.identifier name) (.quotedIdentifier name))
      ⟨(quote.elim (suffixed name' k) (·.quote (suffixed name' k))).toList,
        [quote.elim (.identifier (suffixed name' k)) (.quotedIdentifier (suffixed name' k))]⟩ := by
  intro r r' resembles spells _
  cases quote with
  | none =>
    obtain ⟨spells', resembles'⟩ := Spells.suffixed_word spells same suffix resembles
    exact ⟨.last spells', resembles'⟩
  | some style =>
    obtain ⟨spells', resembles'⟩ := Spells.suffixed_quote spells same suffix resembles
    exact ⟨.last spells', resembles'⟩

theorem suffixed_ne_zero (name k : String) (quote : Option QuoteStyle) :
    (quote.elim (suffixed name k) (·.quote (suffixed name k))).toList ≠ ['0'] := by
  intro zero
  cases quote with
  | none =>
    have underscore : '_' ∈ (suffixed name k).toList := by simp [toList_suffixed]
    rw [Option.elim_none] at zero
    rw [zero] at underscore
    exact absurd underscore (by decide)
  | some style =>
    rw [Option.elim_some, QuoteStyle.quote, String.toList_ofList, List.cons_append] at zero
    have opening := (List.cons.inj zero).1
    cases style <;> exact absurd opening (by decide)

/-! ## The text with the key -/

section Insert

variable (spaced : Spaced ts) (sited : Sited ts points)

include spaced sited

/-- What a key is exchanged for stands in the place of one of its parentheses. -/
theorem listed_of_exchangeAt? {t : Token} (inText : t ∈ ts) {columnsEnd valuesEnd i : Nat}
    (member : .generatedKey columnsEnd valuesEnd i ∈ points) {x : Exchange}
    (exchanged : target.exchangeAt? literal usesPlaceholder t (.generatedKey columnsEnd valuesEnd i) = some x) :
    t.kind = .symbol .rightParen ∧ ∃ key, target.generatedKey = some key ∧
      (t.span.start = columnsEnd ∧ x = .listed ⟨key.column.toList, [.identifier key.column]⟩ ∨
        t.span.start = valuesEnd ∧ x = .listed (keyValue key literal usesPlaceholder)) := by
  obtain ⟨before, closing, between, closing', after, _, rfl, isClosing, isClosing', same⟩ :=
    RewritePoint.parentheses_of_keyAt ((sited.stands _ member).keyAt rfl)
  cases same
  obtain ⟨key, isKey, chosen⟩ := Option.bind_eq_some_iff.mp exchanged
  split at chosen
  · next here =>
    cases chosen
    obtain rfl := spaced.eq_of_start inText (by simp) here
    exact ⟨isClosing, key, isKey, .inl ⟨rfl, rfl⟩⟩
  · split at chosen
    · next here =>
      cases chosen
      obtain rfl := spaced.eq_of_start inText (by simp) here
      exact ⟨isClosing', key, isKey, .inr ⟨rfl, rfl⟩⟩
    · cases chosen

/-- What a point exchanges a token for is all that the token is exchanged for. -/
theorem exchangeOf?_of_exchangeAt? {t : Token} (inText : t ∈ ts) {q : RewritePoint} (member : q ∈ points) {x : Exchange}
    (exchanged : target.exchangeAt? literal usesPlaceholder t q = some x) :
    target.exchangeOf? literal usesPlaceholder points t = some x := by
  -- the token of a key is a parenthesis, and the other points stand at names and numbers
  have apart {q q' : RewritePoint} {x x' : Exchange} (member : q ∈ points) (member' : q' ∈ points) (isKey : q.isKey = true)
      (plain : q'.isKey = false) (exchanged : target.exchangeAt? literal usesPlaceholder t q = some x)
      (exchanged' : target.exchangeAt? literal usesPlaceholder t q' = some x') : False := by
    cases q with
    | generatedKey =>
      have placed := at_of_exchangeAt? spaced sited inText member' plain exchanged'
      exact absurd (listed_of_exchangeAt? spaced sited inText member exchanged).1 (placed.not_symbol _)
    | _ => cases isKey
  cases found : target.exchangeOf? literal usesPlaceholder points t with
  | none =>
    rw [List.findSome?_eq_none_iff.mp found _ member] at exchanged
    cases exchanged
  | some y =>
    obtain ⟨q', member', exchanged'⟩ := List.exists_of_findSome?_eq_some found
    have same : q = q' := by
      cases isKey : q.isKey with
      | true =>
        cases isKey' : q'.isKey with
        | true => exact sited.key _ member _ member' isKey isKey'
        | false => exact (apart member member' isKey isKey' exchanged exchanged').elim
      | false =>
        cases isKey' : q'.isKey with
        | true => exact (apart member' member isKey' isKey exchanged' exchanged).elim
        | false =>
          have placed := at_of_exchangeAt? spaced sited inText member isKey exchanged
          have placed' := at_of_exchangeAt? spaced sited inText member' isKey' exchanged'
          exact sited.eq_of_position member member' (placed.position_eq.trans placed'.position_eq.symm)
    rw [← exchanged', ← same, exchanged]

variable (suffixes : target.Suffixes)

include suffixes

/-- A target with suffixes exchanges the names of tables, and the parentheses of a key. -/
theorem exchangeOf?_cases {t : Token} (inText : t ∈ ts) {x : Exchange}
    (exchanged : target.exchangeOf? literal usesPlaceholder points t = some x) :
    (∃ (name name' k : String) (quote : Option QuoteStyle),
      t.kind = quote.elim (.identifier name) (.quotedIdentifier name) ∧ Text.sameName name name' = true ∧ IsSuffix k ∧
      x = ⟨(quote.elim (suffixed name' k) (·.quote (suffixed name' k))).toList,
        [quote.elim (.identifier (suffixed name' k)) (.quotedIdentifier (suffixed name' k))]⟩) ∨
    ∃ columnsEnd valuesEnd i key, .generatedKey columnsEnd valuesEnd i ∈ points ∧ t.kind = .symbol .rightParen ∧
      target.generatedKey = some key ∧
      (t.span.start = columnsEnd ∧ x = .listed ⟨key.column.toList, [.identifier key.column]⟩ ∨
        t.span.start = valuesEnd ∧ x = .listed (keyValue key literal usesPlaceholder)) := by
  rcases exchanged_cases spaced sited inText exchanged with ⟨name, quote, physical, -, isName, named, rfl⟩ |
    ⟨_, n, -, ⟨_, ⟨-, isNew⟩ | ⟨-, isNew⟩⟩, -⟩ | ⟨columnsEnd, valuesEnd, i, -, member, -, exchanged⟩
  · obtain ⟨name', k, same, suffix, rfl⟩ := suffixes.tables name physical named
    exact .inl ⟨name, name', k, quote, isName, same, suffix, rfl⟩
  · rw [suffixes.offset] at isNew
    cases isNew
  · rw [suffixes.rowCount] at isNew
    cases isNew
  · obtain ⟨isClosing, key, isKey, listed⟩ := listed_of_exchangeAt? spaced sited inText member exchanged
    exact .inr ⟨columnsEnd, valuesEnd, i, key, member, isClosing, isKey, listed⟩

theorem exchangeable_of_key {key : GeneratedKey} (isKey : target.generatedKey = some key) (bare : IsBareName d key.column)
    (spelled : ∀ r, SpellsAll d (')' :: r) (keyValue key literal usesPlaceholder).source
      (keyValue key literal usesPlaceholder).kinds) (whole : List Char) :
    Exchangeable d whole ts (fun _ => False) (target.exchangeOf? literal usesPlaceholder points) where
  fits t inText x exchanged source _ := by
    refine .inl ?_
    rcases exchangeOf?_cases spaced sited suffixes inText exchanged with
      ⟨name, name', k, quote, isName, same, suffix, rfl⟩ | ⟨_, _, _, key', -, isClosing, isKey', listed⟩
    · rw [isName]
      exact fits_of_suffixed same suffix
    · obtain rfl : key = key' := Option.some.inj (isKey.symm.trans isKey')
      rw [isClosing]
      rcases listed with ⟨-, rfl⟩ | ⟨-, rfl⟩
      · exact Exchange.fits_listed fun r => .last (bare.spells rfl)
      · exact Exchange.fits_listed spelled
  apart _ _ _ never := never.elim
  zeros t u adjacent x exchanged zero := by
    obtain ⟨before, after, rfl⟩ := adjacent
    rcases exchangeOf?_cases spaced sited suffixes (by simp) exchanged with
      ⟨name, name', k, quote, -, -, -, rfl⟩ | ⟨_, _, _, key', -, -, -, ⟨-, rfl⟩ | ⟨-, rfl⟩⟩
    · exact absurd zero (suffixed_ne_zero name' k quote)
    · exact absurd (List.cons.inj zero).1 (by decide)
    · exact absurd (List.cons.inj zero).1 (by decide)

/-- A token that is no parenthesis of the key stays one token, and a placeholder only if it was one. -/
theorem exchangedKinds_of_other {columnsEnd valuesEnd i : Nat} (member : .generatedKey columnsEnd valuesEnd i ∈ points)
    {t : Token} (inText : t ∈ ts) (noColumns : t.span.start ≠ columnsEnd) (noValues : t.span.start ≠ valuesEnd) :
    ∃ k, exchangedKinds (target.exchangeOf? literal usesPlaceholder points) t = [k] ∧ SameSlot t.kind k := by
  rw [exchangedKinds]
  cases exchanged : target.exchangeOf? literal usesPlaceholder points t with
  | none => exact ⟨t.kind, rfl, Iff.rfl⟩
  | some x =>
    rcases exchangeOf?_cases spaced sited suffixes inText exchanged with
      ⟨name, name', k, quote, isName, -, -, rfl⟩ | ⟨columnsEnd', valuesEnd', i', _, member', -, -, here⟩
    · refine ⟨_, rfl, ?_⟩
      rw [isName]
      cases quote <;> simp [SameSlot]
    · cases sited.key _ member' _ member rfl rfl
      rcases here with ⟨here, -⟩ | ⟨here, -⟩
      · exact absurd here noColumns
      · exact absurd here noValues

end Insert

end Target

/-! ## Spliced tokens -/

/-- The kinds of tokens with a name added to the list that one parenthesis closes, and other tokens to the list that a later
one closes. All other placeholders stay where they are. -/
inductive Spliced (columnsEnd valuesEnd : Nat) (column : String) (value : List TokenKind) : List Token → List TokenKind → Prop
  | mk {before between after : List Token} {closing closing' : Token} {front middle back : List TokenKind}
    (isClosing : closing.kind = .symbol .rightParen) (here : closing.span.start = columnsEnd)
    (isClosing' : closing'.kind = .symbol .rightParen) (here' : closing'.span.start = valuesEnd)
    (first : List.Forall₂ SameSlot (before.map (·.kind)) front)
    (second : List.Forall₂ SameSlot ((closing :: between).map (·.kind)) middle)
    (third : List.Forall₂ SameSlot ((closing' :: after).map (·.kind)) back) :
    Spliced columnsEnd valuesEnd column value (before ++ (closing :: between) ++ (closing' :: after))
      (front ++ [.symbol .comma, .identifier column] ++ middle ++ .symbol .comma :: value ++ back)

variable {d : Dialect} {p : Place} {ts : List Token} {points : List RewritePoint} {target : Target} {usesPlaceholder : Bool}
  {columnsEnd valuesEnd slot : Nat} {key : GeneratedKey}

theorem forall₂_flatMap {us : List Token} {f : Token → List TokenKind}
    (each : ∀ t ∈ us, ∃ k, f t = [k] ∧ SameSlot t.kind k) : List.Forall₂ SameSlot (us.map (·.kind)) (us.flatMap f) := by
  induction us with
  | nil => exact .nil
  | cons t us ih =>
    obtain ⟨k, single, same⟩ := each t List.mem_cons_self
    rw [List.map_cons, List.flatMap_cons, single]
    exact .cons same (ih fun u member => each u (List.mem_cons_of_mem t member))

/-- A target with a key splices its column and its value. -/
theorem Target.spliced (spaced : Spaced ts) (sited : Sited ts points) (suffixes : target.Suffixes)
    (isKey : target.generatedKey = some key) (member : .generatedKey columnsEnd valuesEnd slot ∈ points)
    (literal : List TokenKind) :
    Spliced columnsEnd valuesEnd key.column (keyValue key literal usesPlaceholder).kinds ts
      (ts.flatMap (exchangedKinds (target.exchangeOf? literal usesPlaceholder points))) := by
  obtain ⟨before, closing, between, closing', after, _, rfl, isClosing, isClosing', same⟩ :=
    RewritePoint.parentheses_of_keyAt ((sited.stands _ member).keyAt rfl)
  cases same
  have inOrder := spaced.inOrder
  simp only [InOrder, List.append_assoc, List.cons_append, List.pairwise_append, List.pairwise_cons, List.mem_append, List.mem_cons]
    at inOrder
  obtain ⟨-, ⟨afterFirst, -, ⟨afterSecond, -⟩, between_lt⟩, before_lt⟩ := inOrder
  have ahead : closing.span.start < closing'.span.start := afterFirst closing' (.inr (.inl rfl))
  have columns : exchangedKinds (target.exchangeOf? literal usesPlaceholder points) closing =
      [.symbol .comma, .identifier key.column, .symbol .rightParen] := by
    rw [exchangedKinds, exchangeOf?_of_exchangeAt? spaced sited (by simp) member
      (show exchangeAt? _ _ _ _ _ = some _ by rw [exchangeAt?, isKey, Option.bind_some, if_pos rfl])]
    rfl
  have values : exchangedKinds (target.exchangeOf? literal usesPlaceholder points) closing' =
      .symbol .comma :: (keyValue key literal usesPlaceholder).kinds ++ [.symbol .rightParen] := by
    rw [exchangedKinds, exchangeOf?_of_exchangeAt? spaced sited (by simp) member
      (show exchangeAt? _ _ _ _ _ = some _ by
        rw [exchangeAt?, isKey, Option.bind_some, if_neg (Nat.ne_of_gt ahead), if_pos rfl])]
    rfl
  have others {us : List Token} (each : ∀ t ∈ us, t ∈ before ++ closing :: between ++ closing' :: after ∧
      t.span.start ≠ closing.span.start ∧ t.span.start ≠ closing'.span.start) : List.Forall₂ SameSlot (us.map (·.kind))
        (us.flatMap (exchangedKinds (target.exchangeOf? literal usesPlaceholder points))) :=
    forall₂_flatMap fun t inside => by
      obtain ⟨inText, noColumns, noValues⟩ := each t inside
      exact exchangedKinds_of_other spaced sited suffixes member inText noColumns noValues
  have closes {t : Token} (isClosing : t.kind = .symbol .rightParen) : SameSlot t.kind (.symbol .rightParen) := by
    rw [isClosing, SameSlot]
  have first : List.Forall₂ SameSlot (before.map (·.kind)) _ := others fun t inside => ⟨by simp [inside],
    Nat.ne_of_lt (before_lt t inside closing (.inl rfl)),
    Nat.ne_of_lt (before_lt t inside closing' (.inr (.inr (.inl rfl))))⟩
  have second : List.Forall₂ SameSlot (between.map (·.kind)) _ := others fun t inside => ⟨by simp [inside],
    Nat.ne_of_gt (afterFirst t (.inl inside)), Nat.ne_of_lt (between_lt t inside closing' (.inl rfl))⟩
  have third : List.Forall₂ SameSlot (after.map (·.kind)) _ := others fun t inside => ⟨by simp [inside],
    Nat.ne_of_gt (afterFirst t (.inr (.inr inside))), Nat.ne_of_gt (afterSecond t inside)⟩
  have spliced : Spliced _ _ key.column (keyValue key literal usesPlaceholder).kinds _ _ :=
    .mk isClosing rfl isClosing' rfl first (.cons (closes isClosing) second) (.cons (closes isClosing') third)
  simpa [columns, values] using spliced

theorem Spliced.count {column : String} {value kinds : List TokenKind}
    (spliced : Spliced columnsEnd valuesEnd column value ts kinds) :
    kinds.count (.symbol .question) = placeholders ts + value.count (.symbol .question) := by
  cases spliced with
  | mk isClosing _ isClosing' _ first second third =>
    have added : [TokenKind.symbol .comma, .identifier column].count (.symbol .question) = 0 :=
      List.count_eq_zero.mpr (by simp)
    have separated : (TokenKind.symbol .comma :: value).count (.symbol .question) = value.count (.symbol .question) :=
      List.count_cons_of_ne (by decide)
    rw [← count_kinds, List.map_append, List.map_append]
    simp only [List.count_append, count_congr first, count_congr second, count_congr third, added, separated]
    omega

/-- The spliced placeholder takes the spliced parameter, and every other placeholder the parameter that it took before. -/
theorem Spliced.slots_eq {column : String} {kinds : List TokenKind}
    (spliced : Spliced columnsEnd valuesEnd column [.symbol .question] ts kinds) (inOrder : InOrder ts)
    (counted : slot = placeholders (ts.filter fun t => t.span.start < valuesEnd)) {vs : List Value} (enough : slot ≤ vs.length)
    (v : Value) :
    ∃ front middle back, slots (ts.map (·.kind)) vs = front ++ middle ++ back ∧
      slots kinds (vs.take slot ++ v :: vs.drop slot) = front ++ [none, none] ++ middle ++ [none, some v] ++ back ∧
      front.length = (ts.filter fun t => t.span.start < columnsEnd).length ∧
      (front ++ middle).length = (ts.filter fun t => t.span.start < valuesEnd).length := by
  cases spliced with
  | @mk before between after closing closing' front middle back isClosing here isClosing' here' first second third =>
    have first_filter : ((before ++ closing :: between ++ closing' :: after).filter fun t => t.span.start < columnsEnd) =
        before := by
      rw [List.append_assoc] at inOrder
      rw [← here, List.append_assoc]
      exact InOrder.filter_before inOrder
    have second_filter : ((before ++ closing :: between ++ closing' :: after).filter fun t => t.span.start < valuesEnd) =
        before ++ closing :: between := by
      rw [← here']
      exact inOrder.filter_before
    rw [second_filter, ← count_kinds, List.map_append, List.count_append] at counted
    have inserted : (front ++ middle).count (.symbol .question) = slot := by
      rw [List.count_append, ← count_congr first, ← count_congr second, counted]
    refine ⟨_, _, _, ?_, slots_insert v nofun inserted enough, ?_, ?_⟩
    · rw [List.map_append, List.map_append, slots_append, slots_append, slots_congr first, slots_congr second,
        slots_congr third, count_congr first, List.count_append, ← counted]
    · rw [first_filter, length_slots, ← first.length_eq, List.length_map]
    · rw [second_filter, List.length_append, length_slots, length_slots, ← first.length_eq, ← second.length_eq,
        List.length_append, List.length_map, List.length_map]

/-! ## Statements with a key -/

theorem Target.keySlot?_eq (sited : Sited ts points) (member : .generatedKey columnsEnd valuesEnd slot ∈ points) :
    keySlot? points = some slot := by
  cases found : keySlot? points with
  | none => cases List.findSome?_eq_none_iff.mp found _ member
  | some n =>
    obtain ⟨q, member', isSlot⟩ := List.exists_of_findSome?_eq_some found
    cases q with
    | generatedKey =>
      cases sited.key _ member' _ member rfl rfl
      exact isSlot.symm
    | _ => cases isSlot

variable {sql : String} {stmt : Statement} {parameters : List Value} {literal : List TokenKind}

/-- The statement with a key in it: its text is the spliced one, and its parameters are those for the text. -/
theorem rewrite_of_key (parsed : parse d sql = .ok stmt) (member : .generatedKey columnsEnd valuesEnd slot ∈ stmt.points)
    (suffixes : target.Suffixes) (isKey : target.generatedKey = some key) (bare : IsBareName d key.column)
    (spelled : ∀ r, SpellsAll d (')' :: r) (Target.keyValue key literal (!parameters.isEmpty)).source
      (Target.keyValue key literal (!parameters.isEmpty)).kinds) :
    ∃ ts e bound ts' e', tokenize d sql = .ok (ts ++ [Token.endAt e]) ∧ InOrder ts ∧
      slot = placeholders (ts.filter fun t => t.span.start < valuesEnd) ∧
      rewrite sql stmt.points target parameters = .ok bound ∧ tokenize d bound.sql = .ok (ts' ++ [Token.endAt e']) ∧
      Spliced columnsEnd valuesEnd key.column (Target.keyValue key literal (!parameters.isEmpty)).kinds ts
        (ts'.map (·.kind)) ∧
      bound.parameters =
        if parameters.isEmpty then parameters else parameters.take slot ++ key.value :: parameters.drop slot := by
  obtain ⟨e, ts, reads, sited⟩ := sited_of_parse parsed
  have spaced := (laid_of_reads reads).spaced
  have written : Written d 0 sql.toList ts := written_of_reads reads
  have exchangeable := Target.exchangeable_of_key spaced sited suffixes isKey bare spelled sql.toList
  obtain ⟨-, rereads⟩ := written.exchange (List.nil_append _).symm rfl exchangeable
  obtain ⟨ts', e', reads', kinds⟩ := rereads .start
  rw [← Target.applyFrom_edits_exchanges spaced sited written] at reads'
  have slotted : slot = placeholders (ts.filter fun t => t.span.start < valuesEnd) := by
    obtain ⟨_, _, us, _, again, gathered, rfl⟩ := gathered_of_parse parsed
    obtain rfl : us = ts := again.eq_of_tokenize (tokenize_of_reads reads)
    exact gathered.slot_eq member
  refine ⟨ts, e, ⟨String.ofList (applyFrom 0 sql.toList (target.edits (!parameters.isEmpty) stmt.points)), _⟩, ts', e',
    tokenize_of_reads reads, spaced.inOrder, slotted, ?_, tokenize_of_reads (by rwa [String.toList_ofList]), ?_, rfl⟩
  · have bound : target.bindKey stmt.points parameters = parameters.take slot ++ key.value :: parameters.drop slot := by
      rw [Target.bindKey, Target.keySlot?_eq sited member, isKey]
    rw [rewrite, applyEdits, Target.checkEdits_ok sited target _ (laid_of_reads reads), bound]
    cases parameters <;> rfl
  · rw [kinds]
    exact Target.spliced spaced sited suffixes isKey member literal

/-- An INSERT with parameters gets one more placeholder and one more parameter. The placeholder ends the row and takes the key,
and all other placeholders take what they took before. -/
theorem rewrite_bindsKey (parsed : parse d sql = .ok stmt) (member : .generatedKey columnsEnd valuesEnd slot ∈ stmt.points)
    (suffixes : target.Suffixes) (isKey : target.generatedKey = some key) (bare : IsBareName d key.column)
    (nonempty : parameters ≠ []) (enough : slot ≤ parameters.length) :
    ∃ ts e bound ts' e', tokenize d sql = .ok (ts ++ [Token.endAt e]) ∧
      rewrite sql stmt.points target parameters = .ok bound ∧ tokenize d bound.sql = .ok (ts' ++ [Token.endAt e']) ∧
      Spliced columnsEnd valuesEnd key.column [.symbol .question] ts (ts'.map (·.kind)) ∧
      placeholders ts' = placeholders ts + 1 ∧ bound.parameters.length = parameters.length + 1 ∧
      ∃ front middle back, slots (ts.map (·.kind)) parameters = front ++ middle ++ back ∧
        slots (ts'.map (·.kind)) bound.parameters = front ++ [none, none] ++ middle ++ [none, some key.value] ++ back ∧
        front.length = (ts.filter fun t => t.span.start < columnsEnd).length ∧
        (front ++ middle).length = (ts.filter fun t => t.span.start < valuesEnd).length := by
  have uses : (!parameters.isEmpty) = true := by simpa using nonempty
  have value : Target.keyValue key [] (!parameters.isEmpty) = ⟨['?'], [.symbol .question]⟩ := by rw [uses]; rfl
  have spelled (r : List Char) : SpellsAll d (')' :: r) (Target.keyValue key [] (!parameters.isEmpty)).source
      (Target.keyValue key [] (!parameters.isEmpty)).kinds := by
    rw [value]
    exact .last (spells_listSign (by decide))
  obtain ⟨ts, e, bound, ts', e', tokens, inOrder, counted, rewritten, tokens', spliced, isBound⟩ :=
    rewrite_of_key parsed member suffixes isKey bare spelled
  rw [value] at spliced
  rw [if_neg (by simpa using nonempty)] at isBound
  refine ⟨ts, e, bound, ts', e', tokens, rewritten, tokens', spliced, ?_, ?_, ?_⟩
  · rw [← count_kinds ts', spliced.count]
    rfl
  · rw [isBound, List.length_append, List.length_cons, List.length_take, List.length_drop]
    omega
  · rw [isBound]
    exact spliced.slots_eq inOrder counted enough key.value

example : rewrite "INSERT t (a) VALUES (?) ON DUPLICATE KEY UPDATE a = ?" [.table ⟨7, 8⟩ "t" none, .generatedKey 11 22 1]
    ⟨[("T", "t_3")], none, none, some ⟨"id", .integer 7⟩⟩ [.text "x", .text "y"] =
      .ok ⟨"INSERT t_3 (a, id) VALUES (?, ?) ON DUPLICATE KEY UPDATE a = ?", [.text "x", .integer 7, .text "y"]⟩ := by
  cbv

/-- An INSERT without parameters gets no parameter, and the placeholders that the key's literal has for the tokenizer. -/
theorem rewrite_writesKey (parsed : parse d sql = .ok stmt) (member : .generatedKey columnsEnd valuesEnd slot ∈ stmt.points)
    (suffixes : target.Suffixes) (isKey : target.generatedKey = some key) (bare : IsBareName d key.column)
    (spelled : ∀ r, SpellsAll d (')' :: r) key.value.toSqlLiteral.toList literal) :
    ∃ ts e bound ts' e', tokenize d sql = .ok (ts ++ [Token.endAt e]) ∧
      rewrite sql stmt.points target [] = .ok bound ∧ tokenize d bound.sql = .ok (ts' ++ [Token.endAt e']) ∧
      Spliced columnsEnd valuesEnd key.column literal ts (ts'.map (·.kind)) ∧
      placeholders ts' = placeholders ts + literal.count (.symbol .question) ∧ bound.parameters = [] := by
  have spelled' : ∀ r, SpellsAll d (')' :: r) (Target.keyValue key literal (!([] : List Value).isEmpty)).source
      (Target.keyValue key literal (!([] : List Value).isEmpty)).kinds := spelled
  obtain ⟨ts, e, bound, ts', e', tokens, -, -, rewritten, tokens', spliced, isBound⟩ :=
    rewrite_of_key parsed member suffixes isKey bare spelled'
  have counted := spliced.count
  rw [count_kinds] at counted
  exact ⟨ts, e, bound, ts', e', tokens, rewritten, tokens', spliced, counted, isBound⟩

/-- Where a backslash escapes the quote that is doubled, the literal of a key ends early and what follows is read as a
placeholder, for which there is no parameter. -/
example : (tokenize .mysql ("INSERT INTO t (a, id) VALUES (1, " ++ (Value.text "\\', ?) -- ").toSqlLiteral ++ ")")).map placeholders =
    .ok 1 := by
  decide +kernel

end Rewrite

end SqlSharding
