import Mathlib.Data.List.Induction
import SqlSharding.Proofs.Gaps

/-!
# Tokens and gaps

The tokens of a text and the gaps before, between and behind them are the whole text. The line and the column of a token, and
those of a fault in the text, are those of the characters before it.
-/

namespace SqlSharding.Sql

open Text

variable {d : Dialect} {text cs : List Char} {p q e : Place} {ts : List Token}

/-! ## Places -/

/-- A byte offset, a line and a column name one place of a text: the line counts the line feeds before the place, and the
column the characters since the last of them, both from one. -/
def StandsAt (text : List Char) (offset line column : Nat) : Prop :=
  ∃ before after, text = before ++ after ∧ offset = byteLength before ∧ line = 1 + before.count '\n' ∧
    column = 1 + (before.reverse.takeWhile (· ≠ '\n')).length

/-- Lines and columns count characters, so they exceed the length of the text by at most one. -/
theorem StandsAt.le_length {offset line column : Nat} (stands : StandsAt text offset line column) :
    line ≤ text.length + 1 ∧ column ≤ text.length + 1 := by
  obtain ⟨before, after, rfl, -, rfl, rfl⟩ := stands
  have feeds : before.count '\n' ≤ before.length := List.count_le_length
  have behind : (before.reverse.takeWhile (· ≠ '\n')).length ≤ before.reverse.length :=
    (List.takeWhile_sublist _).length_le
  rw [List.length_reverse] at behind
  rw [List.length_append]
  omega

/-- A place that is reached in a text from its beginning. -/
def Place.IsIn (text : List Char) (p : Place) : Prop := ∃ before after, text = before ++ after ∧ p = Place.start.afterAll before

theorem Place.afterAll_concat (p : Place) (cs : List Char) (c : Char) : p.afterAll (cs ++ [c]) = (p.afterAll cs).after c :=
  Place.afterAll_append p cs [c]

theorem Place.line_afterAll (cs : List Char) : (Place.start.afterAll cs).line = 1 + cs.count '\n' := by
  induction cs using List.reverseRecOn with
  | nil => rfl
  | append_singleton cs c ih =>
    rw [afterAll_concat, after, List.count_append]
    by_cases ends : c = '\n'
    · rw [if_pos ends, ih, ends]
      simp
      omega
    · rw [if_neg ends, ih]
      simp [ends]

theorem Place.column_afterAll (cs : List Char) :
    (Place.start.afterAll cs).column = 1 + (cs.reverse.takeWhile (· ≠ '\n')).length := by
  induction cs using List.reverseRecOn with
  | nil => rfl
  | append_singleton cs c ih =>
    rw [afterAll_concat, after, List.reverse_append]
    by_cases ends : c = '\n'
    · rw [if_pos ends]
      simp [ends]
    · rw [if_neg ends, ih]
      simp [ends]
      omega

theorem Place.IsIn.standsAt (isIn : p.IsIn text) : StandsAt text p.offset p.line p.column := by
  obtain ⟨before, after, whole, rfl⟩ := isIn
  refine ⟨before, after, whole, ?_, Place.line_afterAll before, Place.column_afterAll before⟩
  rw [Place.afterAll_offset]
  exact Nat.zero_add _

/-! ## Tiles -/

/-- Tokens that are a text together with the gaps around them, when the text begins at the given offset. The last one is the end
of the text. -/
inductive Tiles (d : Dialect) : Nat → List Char → List Token → Prop
  | last {start : Nat} {gap : List Char} {t : Token} (isGap : IsGap d false gap) (isEnd : t.kind = .endOfInput)
    (begins : t.span.start = start + byteLength gap) (ends : t.span.finish = t.span.start) : Tiles d start gap [t]
  | next {start : Nat} {t : Token} {ts : List Token} (gap source : List Char) {after : List Char} (isGap : IsGap d true gap)
    (nonempty : source ≠ []) (notEnd : t.kind ≠ .endOfInput) (begins : t.span.start = start + byteLength gap)
    (ends : t.span.finish = t.span.start + byteLength source) (tail : Tiles d t.span.finish after ts) :
    Tiles d start (gap ++ source ++ after) (t :: ts)

theorem tiles_of_reads (reads : Reads d p cs ts e) : Tiles d p.offset cs (ts ++ [Token.endAt e]) := by
  induction reads with
  | done gap =>
    obtain ⟨rfl, isGap⟩ := isGap_of_skipGap_end gap
    exact .last isGap rfl (Place.afterAll_offset ..) rfl
  | @next p q e cs rest c kind more ts gap front tail ih =>
    obtain ⟨blank, rfl, rfl, isGap⟩ := isGap_of_skipGap gap
    have split : blank ++ c :: rest = blank ++ (c :: rest.take more) ++ rest.drop more := by simp
    rw [split]
    refine .next blank _ isGap (List.cons_ne_nil _ _) (lexeme_ne_endOfInput front) (Place.afterAll_offset ..) ?_ ih
    simp [Place.after_offset, Nat.add_assoc]

/-- Reading a text ends where the text does. -/
theorem Reads.ends (reads : Reads d p cs ts e) : e = p.afterAll cs := by
  induction reads with
  | done gap => exact (isGap_of_skipGap_end gap).1
  | @next p q e cs rest c kind more ts gap front tail ih =>
    obtain ⟨blank, rfl, rfl⟩ := exists_gap_of_skipGap gap
    calc e = (((p.afterAll blank).after c).afterAll (rest.take more)).afterAll (rest.drop more) := ih
      _ = (p.afterAll blank).afterAll (c :: rest) := by
        rw [← Place.afterAll_append, List.take_append_drop]
        rfl
      _ = p.afterAll (blank ++ c :: rest) := (Place.afterAll_append ..).symm

theorem TokenStream.exists_of_toList? {stream : TokenStream} {us : List Token} (listed : stream.toList? = .ok us) :
    ∃ ts e, us = ts ++ [Token.endAt e] := by
  induction stream generalizing us with
  | token t rest ih =>
    rw [toList?] at listed
    cases tail : rest.toList? with
    | error => simp [tail, Except.map] at listed
    | ok us =>
      obtain ⟨ts, e, rfl⟩ := ih tail
      rw [tail] at listed
      exact ⟨t :: ts, e, (Except.ok.inj listed).symm⟩
  | finished q => exact ⟨[], q, (Except.ok.inj listed).symm⟩
  | fault | stuck => cases listed

/-! ## Places in a stream -/

/-- The place of a token. -/
def Token.place (t : Token) : Place := ⟨t.span.start, t.line, t.column⟩

/-- The place of an error. -/
def SyntaxError.place (e : SyntaxError) : Place := ⟨e.span.start, e.line, e.column⟩

/-- All tokens and faults of a stream have places in a text. -/
def TokenStream.IsIn (text : List Char) : TokenStream → Prop
  | token t rest => t.place.IsIn text ∧ rest.IsIn text
  | fault e rest => e.place.IsIn text ∧ rest.IsIn text
  | stuck e => e.place.IsIn text
  | finished p => p.IsIn text

/-- What reading a text finds from one of its places on has places in it. -/
theorem TokenStream.scan_isIn (d : Dialect) (p : Place) (front cs : List Char) (whole : text = front ++ cs)
    (here : p = Place.start.afterAll front) : (scan d p cs).IsIn text := by
  have inside {front before after : List Char} (whole : text = front ++ (before ++ after)) :
      ((Place.start.afterAll front).afterAll before).IsIn text :=
    ⟨front ++ before, after, by rw [whole, List.append_assoc], (Place.afterAll_append ..).symm⟩
  have atEnd {front cs : List Char} (whole : text = front ++ cs) : ((Place.start.afterAll front).afterAll cs).IsIn text :=
    ⟨front ++ cs, [], by rw [whole, List.append_nil], (Place.afterAll_append ..).symm⟩
  -- the text behind the first lexeme, and the place where it begins
  have behind {front blank rest : List Char} {c : Char} (more : Nat) (whole : text = front ++ (blank ++ c :: rest)) :
      text = front ++ (blank ++ c :: rest.take more) ++ rest.drop more ∧
        ((((Place.start.afterAll front).afterAll blank).after c).afterAll (rest.take more)) =
          Place.start.afterAll (front ++ (blank ++ c :: rest.take more)) := by
    constructor
    · rw [whole]
      simp
    · rw [Place.afterAll_append, Place.afterAll_append]
      rfl
  fun_induction scan d p cs generalizing front with
  | case1 p cs opened ending skipped =>
    subst here
    obtain ⟨rfl, ⟨_, ⟨⟩⟩ | ⟨before, after, rfl, rfl⟩⟩ := opened_of_skipGap skipped
    refine ⟨inside whole, ?_⟩
    exact atEnd whole
  | case2 p cs q skipped =>
    subst here
    obtain ⟨rfl, -⟩ := isGap_of_skipGap_end skipped
    exact atEnd whole
  | case3 p cs q c rest skipped kind more front' _ ih =>
    subst here
    obtain ⟨blank, rfl, rfl⟩ := exists_gap_of_skipGap skipped
    obtain ⟨split, reached⟩ := behind more whole
    exact ⟨inside whole, ih _ split reached⟩
  | case4 p cs q c rest skipped cause more front' ih =>
    subst here
    obtain ⟨blank, rfl, rfl⟩ := exists_gap_of_skipGap skipped
    obtain ⟨split, reached⟩ := behind more whole
    exact ⟨inside whole, ih _ split reached⟩
  | case5 p cs q c rest skipped cause front' =>
    subst here
    obtain ⟨blank, rfl, rfl⟩ := exists_gap_of_skipGap skipped
    exact inside whole

theorem TokenStream.ofText_isIn (d : Dialect) (sql : String) : (ofText d sql).IsIn sql.toList :=
  scan_isIn d .start [] sql.toList rfl rfl

/-- The tokens of a stream have places in the text, and so has the fault that breaks it off. -/
theorem TokenStream.IsIn.toList? {stream : TokenStream} (isIn : stream.IsIn text) :
    (∀ us, stream.toList? = .ok us → ∀ t ∈ us, t.place.IsIn text) ∧
      ∀ e, stream.toList? = .error e → e.place.IsIn text := by
  induction stream with
  | token t rest ih =>
    obtain ⟨first, others⟩ := isIn
    obtain ⟨tokens, faults⟩ := ih others
    rw [TokenStream.toList?]
    cases tail : rest.toList? with
    | error e =>
      refine ⟨fun us listed => ?_, fun e' failed => ?_⟩
      · cases listed
      · cases failed
        exact faults e tail
    | ok us =>
      refine ⟨fun us' listed => ?_, fun e' failed => ?_⟩
      · cases listed
        exact List.forall_mem_cons.mpr ⟨first, tokens us tail⟩
      · cases failed
  | fault e rest =>
    refine ⟨fun us listed => ?_, fun e' failed => ?_⟩
    · cases listed
    · cases failed
      exact isIn.1
  | stuck e =>
    refine ⟨fun us listed => ?_, fun e' failed => ?_⟩
    · cases listed
    · cases failed
      exact isIn
  | finished p =>
    refine ⟨fun us listed => ?_, fun e' failed => ?_⟩
    · cases listed
      intro t member
      rw [List.mem_singleton] at member
      subst member
      exact isIn
    · cases failed

/-! ## Tokens of a text -/

/-- What holds of the tokens of a text: with the gaps around them they are the text. None but the last one is empty, and
that one stands at the end. -/
structure Tiled (d : Dialect) (text : List Char) (us : List Token) : Prop where
  tiles : Tiles d 0 text us
  apart : us.Pairwise fun t u => t.span.start < t.span.finish ∧ t.span.finish ≤ u.span.start
  inside : ∀ t ∈ us, t.span.start ≤ t.span.finish ∧ t.span.finish ≤ byteLength text
  boundaries : ∀ t ∈ us, isBoundary t.span.start text = true ∧ isBoundary t.span.finish text = true
  ending : ∃ ts e, us = ts ++ [Token.endAt e] ∧ e.offset = byteLength text ∧
    ∀ t ∈ ts, t.kind ≠ .endOfInput ∧ t.span.start < t.span.finish
  places : ∀ t ∈ us, StandsAt text t.span.start t.line t.column

theorem IsCut.isBoundary {offset : Nat} (cut : IsCut 0 text offset) : isBoundary offset text = true ∧ offset ≤ byteLength text := by
  obtain ⟨before, after, rfl, rfl⟩ := cut
  rw [Nat.zero_add]
  exact ⟨isBoundary_byteLength, by simp⟩

theorem tiled_of_tokenize {sql : String} {us : List Token} (tokens : tokenize d sql = .ok us) : Tiled d sql.toList us := by
  obtain ⟨ts, e, rfl⟩ := TokenStream.exists_of_toList? tokens
  have reads := reads_of_tokenize tokens
  have laid := laid_of_reads reads
  have ending : e.offset = byteLength sql.toList := by
    rw [reads.ends, Place.afterAll_offset]
    exact Nat.zero_add _
  have cuts : ∀ t ∈ ts ++ [Token.endAt e], IsCut 0 sql.toList t.span.start ∧ IsCut 0 sql.toList t.span.finish ∧
      t.span.start ≤ t.span.finish := by
    intro t member
    rcases List.mem_append.mp member with inText | isEnd
    · obtain ⟨first, last, nonempty⟩ := laid.cuts t inText
      exact ⟨first, last, Nat.le_of_lt nonempty⟩
    · obtain rfl := List.mem_singleton.mp isEnd
      have atEnd : IsCut 0 sql.toList e.offset := ⟨sql.toList, [], (List.append_nil _).symm, ending.trans (Nat.zero_add _).symm⟩
      exact ⟨atEnd, atEnd, Nat.le_refl _⟩
  constructor
  · exact tiles_of_reads reads
  · rw [List.pairwise_append]
    refine ⟨?_, List.pairwise_singleton _ _, fun t inText u isEnd => ?_⟩
    · exact laid.pairwise.imp_of_mem fun first _ before => ⟨(laid.cuts _ first).2.2, before⟩
    · obtain rfl := List.mem_singleton.mp isEnd
      obtain ⟨-, last, nonempty⟩ := laid.cuts t inText
      refine ⟨nonempty, ?_⟩
      show t.span.finish ≤ e.offset
      rw [ending]
      exact last.isBoundary.2
  · intro t member
    obtain ⟨-, last, order⟩ := cuts t member
    exact ⟨order, last.isBoundary.2⟩
  · intro t member
    obtain ⟨first, last, -⟩ := cuts t member
    exact ⟨first.isBoundary.1, last.isBoundary.1⟩
  · exact ⟨ts, e, rfl, ending, fun t inText => ⟨reads.proper t inText, (laid.cuts t inText).2.2⟩⟩
  · intro t member
    exact ((TokenStream.ofText_isIn d sql).toList?.1 _ tokens t member).standsAt

/-- A text that is broken off by a fault has the fault in its place. -/
theorem standsAt_of_tokenize {sql : String} {err : SyntaxError} (failed : tokenize d sql = .error err) :
    StandsAt sql.toList err.span.start err.line err.column :=
  ((TokenStream.ofText_isIn d sql).toList?.2 err failed).standsAt

end SqlSharding.Sql
