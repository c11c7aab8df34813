import Mathlib
import SqlSharding.Proofs.Replacements

/-!
# Lists of edits

A list of edits is applied in one pass that keeps its place in the original text. It comes to the same as making the edits one by
one on the whole text, from the last to the first: an edit leaves the bytes before its span as they are, so the spans of the edits
before it keep their places. The list is accepted exactly if its spans run forward, lie between characters of the text and come
one behind the other (`applyEdits_backward`).
-/

namespace SqlSharding

/-! ## Boundaries of a text -/

namespace Text

variable {cs before after : List Char} {offset : Nat}

theorem eq_of_splitAt? (split : splitAt? offset cs = some (before, after)) :
    cs = before ++ after ∧ offset = byteLength before := by
  fun_induction splitAt? offset cs generalizing before after with
  | case1 cs =>
    cases split
    exact ⟨rfl, rfl⟩
  | case2 => cases split
  | case3 n c cs fits ih =>
    obtain ⟨⟨front, rest⟩, inner, same⟩ := Option.map_eq_some_iff.mp split
    cases same
    obtain ⟨rfl, length⟩ := ih inner
    refine ⟨rfl, ?_⟩
    rw [byteLength_cons]
    omega
  | case4 => cases split

theorem isBoundary_iff : isBoundary offset cs = true ↔ ∃ before after, cs = before ++ after ∧ offset = byteLength before := by
  constructor
  · intro boundary
    obtain ⟨⟨before, after⟩, split⟩ := Option.isSome_iff_exists.mp boundary
    exact ⟨before, after, eq_of_splitAt? split⟩
  · rintro ⟨before, after, rfl, rfl⟩
    exact isBoundary_byteLength

/-- A text has as many bytes as its UTF-8 form. -/
theorem size_utf8Encode (cs : List Char) : cs.utf8Encode.size = byteLength cs := by
  induction cs with
  | nil => rfl
  | cons c cs ih => rw [List.utf8Encode_cons, ByteArray.size_append, ih, byteLength_cons, List.utf8Encode_singleton,
      List.size_toByteArray, String.length_utf8EncodeChar]

theorem utf8ByteSize_eq (text : String) : text.utf8ByteSize = byteLength text.toList := by
  rw [← String.size_toByteArray, ← String.utf8Encode_toList, size_utf8Encode]

/-- The boundaries of a text are the positions between its characters. -/
theorem isBoundary_iff_isValid {text : String} :
    isBoundary offset text.toList = true ↔ String.Pos.Raw.IsValid text ⟨offset⟩ := by
  rw [isBoundary_iff, String.Pos.Raw.isValid_iff_exists_append]
  constructor
  · rintro ⟨before, after, whole, rfl⟩
    refine ⟨String.ofList before, String.ofList after, ?_, ?_⟩
    · rw [← String.ofList_append, ← whole, String.ofList_toList]
    · rw [← String.toList_ofList (l := before), ← utf8ByteSize_eq, String.toList_ofList]
      rfl
  · rintro ⟨before, after, rfl, here⟩
    refine ⟨before.toList, after.toList, String.toList_append, ?_⟩
    rw [← utf8ByteSize_eq]
    exact congrArg String.Pos.Raw.byteIdx here

/-- Of two beginnings of a text the one with fewer bytes is the beginning of the other. -/
theorem exists_between {first rest : List Char} (same : first ++ rest = before ++ after)
    (shorter : byteLength first ≤ byteLength before) : ∃ between, before = first ++ between ∧ rest = between ++ after := by
  rcases List.append_eq_append_iff.mp same with found | ⟨more, longer, tail⟩
  · exact found
  · rw [longer, byteLength_append] at shorter
    obtain rfl : more = [] := by
      by_contra nonempty
      have := byteLength_pos nonempty
      omega
    exact ⟨[], by rw [longer, List.append_nil, List.append_nil], tail.symm⟩

end Text

namespace Rewrite

open Sql Text

/-! ## Lists that are accepted -/

/-- The span of an edit runs forward and lies between characters of a text. -/
structure Edit.LiesIn (text : String) (e : Edit) : Prop where
  forward : e.span.start ≤ e.span.finish
  inside : e.span.finish ≤ text.utf8ByteSize
  starts : String.Pos.Raw.IsValid text ⟨e.span.start⟩
  ends : String.Pos.Raw.IsValid text ⟨e.span.finish⟩

variable {text : String} {e : Edit} {es : List Edit} {place index previousEnd : Nat} {cs front : List Char}

theorem editFault?_eq_none_iff :
    editFault? text.toList previousEnd e = none ↔ e.LiesIn text ∧ previousEnd ≤ e.span.start := by
  rw [editFault?, ← utf8ByteSize_eq]
  constructor
  · intro faultless
    split at faultless
    · cases faultless
    split at faultless
    · cases faultless
    split at faultless
    · cases faultless
    split at faultless
    · cases faultless
    next forward inside between later =>
      simp only [Bool.not_eq_true, Bool.not_eq_false', Bool.and_eq_true] at between
      exact ⟨⟨Nat.le_of_not_lt forward, Nat.le_of_not_lt inside, isBoundary_iff_isValid.mp between.1,
        isBoundary_iff_isValid.mp between.2⟩, Nat.le_of_not_lt later⟩
  · rintro ⟨lies, later⟩
    rw [if_neg (Nat.not_lt.mpr lies.forward), if_neg (Nat.not_lt.mpr lies.inside), isBoundary_iff_isValid.mpr lies.starts,
      isBoundary_iff_isValid.mpr lies.ends]
    exact if_neg (Nat.not_lt.mpr later)

theorem checkFrom_eq_ok_iff : checkFrom text.toList index previousEnd es = .ok () ↔
    (∀ e ∈ es, e.LiesIn text) ∧ (∀ e ∈ es.head?, previousEnd ≤ e.span.start) ∧
      es.IsChain fun e f => e.span.finish ≤ f.span.start := by
  induction es generalizing index previousEnd with
  | nil => simp [checkFrom]
  | cons e es ih =>
    rw [checkFrom, List.forall_mem_cons, List.isChain_cons]
    simp only [List.head?_cons, Option.mem_some_iff, forall_eq']
    cases fault : editFault? text.toList previousEnd e with
    | none =>
      obtain ⟨lies, later⟩ := editFault?_eq_none_iff.mp fault
      rw [ih]
      constructor
      · rintro ⟨each, next, chain⟩
        exact ⟨⟨lies, each⟩, later, next, chain⟩
      · rintro ⟨⟨-, each⟩, -, next, chain⟩
        exact ⟨each, next, chain⟩
    | some f =>
      constructor
      · intro run
        cases run
      · rintro ⟨⟨lies, -⟩, later, -⟩
        rw [editFault?_eq_none_iff.mpr ⟨lies, later⟩] at fault
        cases fault

/-! ## Edits along a text -/

/-- Edits that stand one behind the other in what is left of a text after a place. -/
inductive EditsAlong : Nat → List Char → List Edit → Prop
  | nil {place : Nat} {cs : List Char} : EditsAlong place cs []
  | cons {place : Nat} {e : Edit} {es : List Edit} (gap source : List Char) {after : List Char}
    (begins : e.span.start = place + byteLength gap) (ends : e.span.finish = e.span.start + byteLength source)
    (tail : EditsAlong e.span.finish after es) : EditsAlong place (gap ++ source ++ after) (e :: es)

theorem editsAlong_of_liesIn (lie : ∀ e ∈ es, e.LiesIn text) (chain : es.IsChain fun e f => e.span.finish ≤ f.span.start)
    (later : ∀ e ∈ es.head?, byteLength front ≤ e.span.start) (whole : text.toList = front ++ cs) :
    EditsAlong (byteLength front) cs es := by
  induction es generalizing front cs with
  | nil => exact .nil
  | cons e es ih =>
    have lies := lie e List.mem_cons_self
    obtain ⟨before, after, cut, begins⟩ := isBoundary_iff.mp (isBoundary_iff_isValid.mpr lies.starts)
    obtain ⟨before', after', cut', ends⟩ := isBoundary_iff.mp (isBoundary_iff_isValid.mpr lies.ends)
    have order : byteLength before ≤ byteLength before' := begins ▸ ends ▸ lies.forward
    obtain ⟨gap, rfl, rfl⟩ := exists_between (whole.symm.trans cut) (begins ▸ later e rfl)
    obtain ⟨source, rfl, rfl⟩ := exists_between (cut.symm.trans cut') order
    rw [byteLength_append] at begins
    rw [List.isChain_cons] at chain
    rw [← List.append_assoc]
    refine .cons gap source begins (by simp [ends, begins, Nat.add_assoc]) ?_
    rw [ends]
    exact ih (fun f member => lie f (List.mem_cons_of_mem e member)) chain.2 (ends ▸ chain.1) cut'

namespace Edit

/-- One edit of a whole text, byte by byte: what is before the span, the replacement, and what is behind the span. -/
def splice (e : Edit) (bytes : ByteArray) : ByteArray :=
  bytes.extract 0 e.span.start ++ e.replacement.toByteArray ++ bytes.extract e.span.finish bytes.size

theorem splice_utf8Encode {before source after : List Char} (begins : e.span.start = byteLength before)
    (ends : e.span.finish = e.span.start + byteLength source) :
    e.splice (before ++ source ++ after).utf8Encode = (before ++ e.replacement.toList ++ after).utf8Encode := by
  have left : (before ++ source ++ after).utf8Encode.extract 0 e.span.start = before.utf8Encode := by
    rw [List.append_assoc, List.utf8Encode_append]
    exact ByteArray.extract_append_eq_left (begins.trans (size_utf8Encode before).symm)
  have right : (before ++ source ++ after).utf8Encode.extract e.span.finish (before ++ source ++ after).utf8Encode.size =
      after.utf8Encode := by
    rw [List.utf8Encode_append]
    refine ByteArray.extract_append_eq_right ?_ ByteArray.size_append
    rw [size_utf8Encode, byteLength_append, ends, begins]
  rw [splice, left, right, List.utf8Encode_append, List.utf8Encode_append, String.utf8Encode_toList]

end Edit

namespace EditsAlong

variable (along : EditsAlong place cs es)

include along

/-- The text before a place stays as it is while the edits after the place are made from the last one on. -/
theorem foldr_splice (here : place = byteLength front) :
    es.foldr Edit.splice (front ++ cs).utf8Encode = (front ++ applyFrom place cs es).utf8Encode := by
  induction along generalizing front with
  | nil => rfl
  | @cons place e es gap source after begins ends tail ih =>
    have split : front ++ (gap ++ source ++ after) = (front ++ gap ++ source) ++ after := by simp only [List.append_assoc]
    rw [List.foldr_cons, split, ih (by simp [ends, begins, here, Nat.add_assoc]),
      Edit.splice_utf8Encode (by rw [begins, here, byteLength_append]) ends, applyFrom_cons begins ends]
    simp only [List.append_assoc]

theorem byteLength_applyFrom :
    byteLength (applyFrom place cs es) + (es.map fun e => e.span.finish - e.span.start).sum =
      byteLength cs + (es.map fun e => e.replacement.utf8ByteSize).sum := by
  induction along with
  | nil => rfl
  | @cons place e es gap source after begins ends tail ih =>
    rw [applyFrom_cons begins ends, List.map_cons, List.map_cons, List.sum_cons, List.sum_cons, utf8ByteSize_eq]
    simp only [byteLength_append]
    omega

end EditsAlong

/-! ## Lists from the last edit to the first -/

/-- A list of edits is accepted exactly if every span lies in the text and none begins before the one before it has ended. The
outcome is that of the edits made one by one from the last to the first, and its length is the old one without the spans and with
the replacements. -/
theorem applyEdits_backward (text : String) (edits : List Edit) :
    ((∃ edited, applyEdits text edits = .ok edited) ↔
      (∀ e ∈ edits, e.LiesIn text) ∧ edits.IsChain fun e f => e.span.finish ≤ f.span.start) ∧
    ∀ edited, applyEdits text edits = .ok edited →
      edited.toByteArray = edits.foldr Edit.splice text.toByteArray ∧
      edited.utf8ByteSize + (edits.map fun e => e.span.finish - e.span.start).sum =
        text.utf8ByteSize + (edits.map fun e => e.replacement.utf8ByteSize).sum := by
  have accepted : checkEdits text.toList edits = .ok () ↔
      (∀ e ∈ edits, e.LiesIn text) ∧ edits.IsChain fun e f => e.span.finish ≤ f.span.start := by
    rw [checkEdits, checkFrom_eq_ok_iff]
    simp
  have applied {edited : String} : applyEdits text edits = .ok edited ↔
      checkEdits text.toList edits = .ok () ∧ String.ofList (applyFrom 0 text.toList edits) = edited := by
    rw [applyEdits, bind_eq_ok_iff]
    simp only [pure_eq_ok_iff, Unique.exists_iff]
  constructor
  · simp only [applied, accepted, exists_and_left, exists_eq', and_true]
  · intro edited run
    obtain ⟨checked, rfl⟩ := applied.mp run
    obtain ⟨lie, chain⟩ := accepted.mp checked
    have along : EditsAlong (byteLength []) text.toList edits :=
      editsAlong_of_liesIn lie chain (fun _ _ => Nat.zero_le _) rfl
    constructor
    · have spliced := along.foldr_splice rfl
      rw [List.nil_append, List.nil_append, String.utf8Encode_toList] at spliced
      rw [spliced, ← String.utf8Encode_toList, String.toList_ofList, byteLength_nil]
    · rw [utf8ByteSize_eq, utf8ByteSize_eq text, String.toList_ofList]
      exact along.byteLength_applyFrom

/-- Two insertions at one place, between a replaced character and a deleted one next to it; both take several bytes. -/
theorem applyEdits_backward_adjacent :
    applyEdits "aé→b" [⟨⟨1, 3⟩, "e"⟩, .insertion 3 "x", .insertion 3 "ÿ", ⟨⟨3, 6⟩, ""⟩] = .ok "aexÿb" ∧
    "aexÿb".toByteArray = [⟨⟨1, 3⟩, "e"⟩, .insertion 3 "x", .insertion 3 "ÿ", ⟨⟨3, 6⟩, ""⟩].foldr Edit.splice "aé→b".toByteArray ∧
    "aexÿb".utf8ByteSize + 5 = "aé→b".utf8ByteSize + 4 := by
  have run : applyEdits "aé→b" [⟨⟨1, 3⟩, "e"⟩, .insertion 3 "x", .insertion 3 "ÿ", ⟨⟨3, 6⟩, ""⟩] = .ok "aexÿb" := by cbv
  exact ⟨run, (applyEdits_backward _ _).2 _ run⟩

end Rewrite

end SqlSharding
