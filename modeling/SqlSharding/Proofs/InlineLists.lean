import Mathlib
import SqlSharding.Proofs.TextPieces
import SqlSharding.Proofs.WholeNumbers
import SqlSharding.Routing.InlineList

/-!
# Inline lists and what they stand for

An inline list is written as segments between commas; a segment is plain text with groups in between, and a group offers integers from
one bound to another, or the items of a list. Blanks may stand around segments, bodies of groups, bounds and items. The commas of a
group are not those of the list, since no brace stands in it, and its closing brace is the first one behind its opener. So an inline
list stands for one name of each segment for every way to choose from its groups, in the order in which the last group changes first
(`expand_listText`).
-/

namespace SqlSharding.Routing.InlineList

open Text

/-! ## What is written -/

/-- The characters that have a meaning in inline lists, apart from brackets, which have one at the ends of a body only. -/
def special : List Char := ['$', ',', '\x7b', '\x7d']

/-- Text that stands for itself. -/
structure Plain where
  chars : List Char
  plain : ∀ c ∈ chars, c ∉ special

/-- Something between blanks. -/
structure Padded (α : Type) where
  before : List Char
  content : α
  after : List Char
  blank : AllBlank before
  blank' : AllBlank after

def Padded.text {α : Type} (write : α → List Char) (p : Padded α) : List Char := p.before ++ write p.content ++ p.after

/-- A bound of a range. -/
structure Bound where
  chars : List Char
  value : Int64
  decimal : IsDecimal chars value.toInt

/-- An item of a list. -/
structure Item where
  chars : List Char
  nonempty : chars ≠ []
  plain : ∀ c ∈ chars, c ∉ '[' :: ']' :: special
  bare : IsBare chars

inductive Body where
  | range (lo hi : Bound) (behind ahead : List Char) (blank : AllBlank behind) (blank' : AllBlank ahead)
      (ordered : lo.value ≤ hi.value)
  | list (items : List (Padded Item)) (nonempty : items ≠ [])

namespace Body

/-- A body as it is written between the opener and the closing brace of its group. -/
def text : Body → List Char
  | range lo hi behind ahead .. => lo.chars ++ (behind ++ ['.', '.'] ++ ahead) ++ hi.chars
  | list items _ => ['['] ++ List.intercalate [','] (items.map (·.text Item.chars)) ++ [']']

/-- The number of its choices. -/
def size : Body → Nat
  | range lo hi .. => (hi.value.toInt - lo.value.toInt + 1).toNat
  | list items _ => items.length

/-- The choice at a position. -/
def choiceAt : Body → Nat → List Char
  | range lo .., i => (toString (lo.value.toInt + i)).toList
  | list items _, i => items[i]?.elim [] (·.content.chars)

end Body

/-- A group with the plain text behind it. -/
structure Part where
  group : Padded Body
  after : Plain

namespace Part

def groupText (p : Part) : List Char := opener ++ p.group.text Body.text ++ [closer]

def text (p : Part) : List Char := p.groupText ++ p.after.chars

end Part

/-- Plain text and groups by turns. -/
def segmentText (first : Plain) (parts : List Part) : List Char := first.chars ++ parts.flatMap Part.text

structure Segment where
  first : Plain
  parts : List Part
  nonempty : segmentText first parts ≠ []
  bare : IsBare (segmentText first parts)

/-- An inline list as it is written. -/
def listText (segments : List (Padded Segment)) : List Char :=
  List.intercalate [','] (segments.map (·.text fun s => segmentText s.first s.parts))

/-! ## What it stands for -/

/-- One position for each group, within the number of its choices. -/
def IsPositions (parts : List Part) (positions : List Nat) : Prop :=
  List.Forall₂ (fun part i => i < part.group.content.size) parts positions

/-- A segment with the choices at some positions in place of its groups. -/
def variantAt (first : Plain) (parts : List Part) (positions : List Nat) : List Char :=
  first.chars ++ (List.zipWith (fun part i => part.group.content.choiceAt i ++ part.after.chars) parts positions).flatten

/-- Names are the variants of a segment, one for every choice of positions, in lexicographic order of the positions: those of the last
group change first. -/
def Segment.Enumerates (s : Segment) (names : List String) : Prop :=
  ∃ positions : List (List Nat), positions.Pairwise (· < ·) ∧ (∀ p, p ∈ positions ↔ IsPositions s.parts p) ∧
    names = positions.map fun p => String.ofList (variantAt s.first s.parts p)

/-! ## Cutting at commas -/

variable {c : Char} {cs rest : List Char} {depth : Nat}

/-- Text that the search for commas passes without cutting it. -/
def Passed (cs : List Char) : Prop := ∀ rest, segments? 0 (cs ++ rest) = (segments? 0 rest).map (prependFirst cs)

theorem prependFirst_append (before cs : List Char) {segments : List (List Char)} :
    prependFirst before (prependFirst cs segments) = prependFirst (before ++ cs) segments := by
  cases segments with
  | nil => rfl
  | cons segment segments => simp [prependFirst]

theorem ne_nil_of_segments? {segments : List (List Char)} (found : segments? depth cs = some segments) : segments ≠ [] := by
  have ofPrepended {cs : List Char} {inner : Option (List (List Char))}
      (found : inner.map (prependFirst cs) = some segments) : segments ≠ [] := by
    obtain ⟨inner, -, rfl⟩ := Option.map_eq_some_iff.mp found
    cases inner <;> exact List.cons_ne_nil _ _
  unfold segments? at found
  split at found
  · cases found
    exact List.cons_ne_nil _ _
  · cases found
  · exact ofPrepended found
  · exact ofPrepended found
  · obtain ⟨inner, -, rfl⟩ := Option.map_eq_some_iff.mp found
    exact List.cons_ne_nil _ _
  · exact ofPrepended found

theorem segments?_of_plain (plain : c ∉ special) (rest : List Char) :
    segments? 0 (c :: rest) = (segments? 0 rest).map (prependFirst [c]) := by
  simp only [special, List.mem_cons, List.not_mem_nil, or_false, not_or] at plain
  obtain ⟨noOpener, noComma, -, noCloser⟩ := plain
  rw [segments?]
  all_goals simp_all

theorem segments?_inside (inside : c ∉ ['$', '\x7d']) (rest : List Char) :
    segments? (depth + 1) (c :: rest) = (segments? (depth + 1) rest).map (prependFirst [c]) := by
  rw [segments?]
  all_goals simp_all

theorem segments?_body (inside : ∀ c ∈ cs, c ∉ ['$', '\x7d']) (rest : List Char) :
    segments? (depth + 1) (cs ++ closer :: rest) = (segments? depth rest).map (prependFirst (cs ++ [closer])) := by
  induction cs with
  | nil =>
    rw [List.nil_append, List.nil_append, closer, segments?]
    rfl
  | cons c cs ih =>
    rw [List.cons_append, segments?_inside (inside c List.mem_cons_self), ih fun c member => inside c (List.mem_cons_of_mem _ member),
      Option.map_map]
    congr 1
    funext segments
    exact prependFirst_append [c] _

namespace Passed

theorem nil : Passed [] := by
  intro rest
  rw [List.nil_append]
  cases found : segments? 0 rest with
  | none => rfl
  | some segments =>
    obtain ⟨segment, others, rfl⟩ := List.exists_cons_of_ne_nil (ne_nil_of_segments? found)
    rfl

theorem append {cs cs' : List Char} (passed : Passed cs) (passed' : Passed cs') : Passed (cs ++ cs') := by
  intro rest
  rw [List.append_assoc, passed, passed', Option.map_map]
  congr 1
  funext segments
  exact prependFirst_append cs cs'

theorem of_plain (plain : ∀ c ∈ cs, c ∉ special) : Passed cs := by
  induction cs with
  | nil => exact .nil
  | cons c cs ih =>
    have first : Passed [c] := segments?_of_plain (plain c List.mem_cons_self)
    exact first.append (ih fun c member => plain c (List.mem_cons_of_mem _ member))

/-- A group is passed as a whole: behind its opener only its closing brace has a meaning. -/
theorem of_group (inside : ∀ c ∈ cs, c ∉ ['$', '\x7d']) : Passed (opener ++ cs ++ [closer]) := by
  intro rest
  have opened (rest : List Char) : segments? 0 (opener ++ rest) = (segments? 1 rest).map (prependFirst opener) := by
    rw [opener, List.cons_append, List.cons_append, List.nil_append, segments?]
    rfl
  rw [List.append_assoc, List.append_assoc, opened, List.singleton_append, segments?_body inside, Option.map_map, List.append_assoc]
  congr 1
  funext segments
  exact prependFirst_append opener _

end Passed

/-- Texts that are passed are the segments of the list that joins them by commas. -/
theorem segments?_intercalate {texts : List (List Char)} (nonempty : texts ≠ []) (passed : ∀ text ∈ texts, Passed text) :
    segments? 0 (List.intercalate [','] texts) = some texts := by
  induction texts with
  | nil => exact absurd rfl nonempty
  | cons text texts ih =>
    have here := passed text List.mem_cons_self
    cases texts with
    | nil =>
      have alone := here []
      rw [List.append_nil] at alone
      rw [List.intercalate_singleton, alone, segments?, Option.map_some, prependFirst, List.append_nil]
    | cons next texts =>
      have comma (rest : List Char) : segments? 0 (',' :: rest) = (segments? 0 rest).map ([] :: ·) := by
        rw [segments?]
      rw [List.intercalate_cons_cons, List.append_assoc, List.singleton_append, here, comma,
        ih (List.cons_ne_nil _ _) fun text member => passed text (List.mem_cons_of_mem _ member), Option.map_some, Option.map_some,
        prependFirst, List.append_nil]

/-! ## Choices of a group -/

/-- The signs that are told apart from blanks, digits and signs of numbers. -/
theorem notMem_of_isBlank (blank : isBlank c = true) : c ∉ '.' :: '[' :: ']' :: special := by
  intro member
  have noBlank : isBlank c = false := by
    refine isBlank_eq_false ?_
    simp only [special, List.mem_cons, List.not_mem_nil, or_false] at member
    rcases member with rfl | rfl | rfl | rfl | rfl | rfl | rfl <;> decide
  exact absurd (blank.symm.trans noBlank) (by decide)

namespace Bound

variable (bound : Bound)

theorem notMem (member : c ∈ bound.chars) : c ∉ '.' :: '[' :: ']' :: special := by
  intro sign
  have noDigit : c.isDigit = false ∧ c ≠ '+' ∧ c ≠ '-' := by
    simp only [special, List.mem_cons, List.not_mem_nil, or_false] at sign
    rcases sign with rfl | rfl | rfl | rfl | rfl | rfl | rfl <;> decide
  rcases bound.decimal.isDigit_or_sign member with digit | isPlus | isMinus
  · exact absurd (digit.symm.trans noDigit.1) (by decide)
  · exact noDigit.2.1 isPlus
  · exact noDigit.2.2 isMinus

theorem bare : IsBare bound.chars := by
  refine .of_noBlank fun c member => isBlank_eq_false ?_
  rcases bound.decimal.isDigit_or_sign member with digit | rfl | rfl
  · have range : 48 ≤ c.toNat ∧ c.toNat ≤ 57 := Char.isDigit_iff_toNat.mp digit
    omega
  · decide
  · decide

theorem readInt64?_eq : readInt64? bound.chars = some bound.value := readInt64?_eq_some_iff.mpr bound.decimal

end Bound

theorem Padded.trim_text {α : Type} {write : α → List Char} (p : Padded α) (bare : IsBare (write p.content)) :
    trim (p.text write) = write p.content := trim_padded p.blank p.blank' bare

theorem Padded.mem_text {α : Type} {write : α → List Char} {p : Padded α} (member : c ∈ p.text write) :
    isBlank c = true ∨ c ∈ write p.content := by
  rcases List.mem_append.mp member with front | behind
  · exact (List.mem_append.mp front).imp (p.blank c) id
  · exact .inl (p.blank' c behind)

theorem Item.notMem {p : Padded Item} (member : c ∈ p.text chars) : c ∉ '[' :: ']' :: special := by
  rcases Padded.mem_text member with blank | inside
  · exact fun sign => notMem_of_isBlank blank (List.mem_cons_of_mem _ sign)
  · exact p.content.plain c inside

namespace Body

variable (body : Body)

theorem bare : IsBare body.text := by
  cases body with
  | range lo hi => exact lo.bare.append hi.bare lo.decimal.ne_nil hi.decimal.ne_nil _
  | list items =>
    have bracket {c : Char} (noBlank : isBlank c = false) : IsBare [c] := .of_noBlank (by simpa using noBlank)
    exact (bracket rfl).append (bracket rfl) (List.cons_ne_nil _ _) (List.cons_ne_nil _ _) _

/-- No character of a body opens or closes a group. -/
theorem inside (member : c ∈ body.text) : c ∉ ['$', '\x7d'] := by
  have apart (signs : List Char) (plain : c ∉ signs ++ special) : c ∉ ['$', '\x7d'] := by
    intro sign
    refine plain (List.mem_append_right _ ?_)
    simp only [List.mem_cons, List.not_mem_nil, or_false] at sign
    rcases sign with rfl | rfl <;> decide
  cases body with
  | range lo hi behind ahead blank blank' =>
    simp only [text, List.mem_append] at member
    rcases member with (inLo | ((inBehind | point) | inAhead)) | inHi
    · exact apart ['.', '[', ']'] (lo.notMem inLo)
    · exact apart ['.', '[', ']'] (notMem_of_isBlank (blank c inBehind))
    · have isPoint : c = '.' := by simpa using point
      exact isPoint ▸ by decide
    · exact apart ['.', '[', ']'] (notMem_of_isBlank (blank' c inAhead))
    · exact apart ['.', '[', ']'] (hi.notMem inHi)
  | list items =>
    simp only [text, List.mem_append, List.mem_singleton] at member
    rcases member with (rfl | joined) | rfl
    · decide
    · rcases mem_of_mem_intercalate joined with rfl | ⟨_, isItem, inItem⟩
      · decide
      · obtain ⟨item, -, rfl⟩ := List.mem_map.mp isItem
        exact apart ['[', ']'] (Item.notMem inItem)
    · decide

end Body

/-- No character of a group opens or closes one. -/
theorem Padded.inside {group : Padded Body} (member : c ∈ group.text Body.text) : c ∉ ['$', '\x7d'] := by
  rcases Padded.mem_text member with blank | inBody
  · intro sign
    refine notMem_of_isBlank blank ?_
    simp only [List.mem_cons, List.not_mem_nil, or_false] at sign
    rcases sign with rfl | rfl <;> decide
  · exact group.content.inside inBody

namespace Body

variable (body : Body)

/-- The choices of a group are those at its positions. -/
theorem choices_eq (segment : List Char) : choices body.text segment = .ok ((List.range body.size).map body.choiceAt) := by
  cases body with
  | range lo hi behind ahead blank blank' ordered =>
    obtain ⟨first, digits, isLo⟩ := List.exists_cons_of_ne_nil lo.decimal.ne_nil
    have noBracket : first ≠ '[' := by
      rintro rfl
      exact lo.notMem (isLo ▸ List.mem_cons_self) (by decide)
    have noList : bracketed? (text (.range lo hi behind ahead blank blank' ordered)) = none := by
      rw [text, isLo, List.cons_append, List.cons_append, bracketed?]
      simpa using noBracket
    have noPoint : '.' ∉ lo.chars ++ behind := by
      intro member
      rcases List.mem_append.mp member with inLo | inBehind
      · exact lo.notMem inLo List.mem_cons_self
      · exact notMem_of_isBlank (blank '.' inBehind) List.mem_cons_self
    have atPoints : cut? ['.', '.'] (text (.range lo hi behind ahead blank blank' ordered)) =
        some (lo.chars ++ behind, ahead ++ hi.chars) := by
      have found : cut? ['.', '.'] (lo.chars ++ behind ++ (['.', '.'] ++ (ahead ++ hi.chars))) = _ := cut?_append noPoint
      rw [text]
      simpa using found
    have trimLo : trim (lo.chars ++ behind) = lo.chars := trim_padded allBlank_nil blank lo.bare
    have trimHi : trim (ahead ++ hi.chars) = hi.chars := by
      have trimmed := trim_padded blank' allBlank_nil hi.bare
      rwa [List.append_nil] at trimmed
    rw [choices, noList]
    dsimp only
    rw [atPoints]
    dsimp only
    rw [trimLo, trimHi, lo.readInt64?_eq, hi.readInt64?_eq]
    dsimp only
    rw [if_pos ordered, integersBetween, List.map_map]
    rfl
  | list items nonempty =>
    have inBrackets : bracketed? (text (.list items nonempty)) = some (List.intercalate [','] (items.map (·.text Item.chars))) := by
      rw [text, List.append_assoc, List.singleton_append, bracketed?, if_pos (List.getLast?_concat ..), List.dropLast_concat]
    have apart : ∀ text ∈ items.map (·.text Item.chars), ',' ∉ text := by
      intro text isItem comma
      obtain ⟨item, -, rfl⟩ := List.mem_map.mp isItem
      exact Item.notMem comma (by decide)
    rw [choices, inBrackets]
    dsimp only
    rw [listChoices, pieces_intercalate (by simpa using nonempty) apart, List.map_map]
    have trimmed : items.map (trim ∘ fun item => item.text Item.chars) = items.map (·.content.chars) :=
      List.map_congr_left fun item _ => item.trim_text item.content.bare
    have none : ∀ piece ∈ items.map (·.content.chars), (!piece.isEmpty) = true := by
      intro piece isItem
      obtain ⟨item, -, rfl⟩ := List.mem_map.mp isItem
      simpa using item.content.nonempty
    rw [trimmed, List.filter_eq_self.mpr none]
    congr 1
    apply List.ext_getElem
    · rw [List.length_map, List.length_map, List.length_range, size]
    · intro i inside _
      rw [List.length_map] at inside
      rw [List.getElem_map, List.getElem_map, List.getElem_range, choiceAt, List.getElem?_eq_getElem inside, Option.elim_some]

end Body

/-! ## Variants of a segment -/

theorem variants_eq (segment : List Char) : variants segment =
    match cut? opener segment with
    | none => .ok [segment]
    | some (before, afterOpener) =>
      match cut? [closer] afterOpener with
      | none => .error (.unterminated (String.ofList segment))
      | some (body, after) => do
        let middle ← choices (trim body) segment
        let tails ← variants after
        return middle.flatMap fun choice => tails.map fun tail => before ++ choice ++ tail := by
  rw [variants]
  split
  · next opened => rw [opened]
  · next opened =>
    rw [opened]
    dsimp only
    split
    · next closed => rw [closed]
    · next closed => rw [closed]

/-- All positions in the groups of a segment, those of the last group changing first. -/
def positionsOf : List Part → List (List Nat)
  | [] => [[]]
  | part :: parts => (List.range part.group.content.size).flatMap fun i => (positionsOf parts).map (i :: ·)

theorem mem_positionsOf {parts : List Part} {positions : List Nat} :
    positions ∈ positionsOf parts ↔ IsPositions parts positions := by
  induction parts generalizing positions with
  | nil => rw [positionsOf, List.mem_singleton, IsPositions, List.forall₂_nil_left_iff]
  | cons part parts ih =>
    rw [positionsOf, IsPositions, List.forall₂_cons_left_iff]
    simp only [List.mem_flatMap, List.mem_range, List.mem_map, ih]
    constructor
    · rintro ⟨i, inside, later, isLater, rfl⟩
      exact ⟨i, later, inside, isLater, rfl⟩
    · rintro ⟨i, later, inside, isLater, rfl⟩
      exact ⟨i, inside, later, isLater, rfl⟩

/-- Positions with an earlier choice from the first group come first, and those with the same one are in order already. -/
theorem pairwise_positionsOf (parts : List Part) : (positionsOf parts).Pairwise (· < ·) := by
  induction parts with
  | nil => exact List.pairwise_singleton _ _
  | cons part parts ih =>
    rw [positionsOf, List.pairwise_flatMap]
    refine ⟨fun i _ => ?_, List.pairwise_lt_range.imp fun {i j} before => ?_⟩
    · rw [List.pairwise_map]
      exact ih.imp fun later => List.cons_lt_cons_iff.mpr (.inr ⟨rfl, later⟩)
    · intro p isFirst q isSecond
      obtain ⟨later, -, rfl⟩ := List.mem_map.mp isFirst
      obtain ⟨later', -, rfl⟩ := List.mem_map.mp isSecond
      exact List.cons_lt_cons_iff.mpr (.inl before)

theorem variants_segmentText (first : Plain) (parts : List Part) :
    variants (segmentText first parts) = .ok ((positionsOf parts).map (variantAt first parts)) := by
  have noDollar (plain : Plain) : '$' ∉ plain.chars := fun member => plain.plain '$' member List.mem_cons_self
  induction parts generalizing first with
  | nil =>
    rw [segmentText, List.flatMap_nil, List.append_nil, variants_eq, opener, cut?_eq_none (noDollar first)]
    simp [positionsOf, variantAt]
  | cons part parts ih =>
    have written : segmentText first (part :: parts) =
        first.chars ++ (opener ++ (part.group.text Body.text ++ ([closer] ++ segmentText part.after parts))) := by
      simp [segmentText, Part.text, Part.groupText]
    rw [variants_eq, written, opener, cut?_append (noDollar first)]
    dsimp only
    rw [closer, cut?_append fun member => Padded.inside member (by decide)]
    dsimp only
    rw [part.group.trim_text part.group.content.bare, part.group.content.choices_eq, ih]
    change Except.ok _ = Except.ok _
    congr 1
    rw [positionsOf, List.map_flatMap, List.flatMap_map]
    simp only [List.map_map]
    refine List.flatMap_congr fun i _ => List.map_congr_left fun later _ => ?_
    simp [variantAt]

/-! ## Names of a list -/

theorem passed_segmentText (first : Plain) (parts : List Part) : Passed (segmentText first parts) := by
  induction parts generalizing first with
  | nil =>
    rw [segmentText, List.flatMap_nil, List.append_nil]
    exact .of_plain first.plain
  | cons part parts ih =>
    have written : segmentText first (part :: parts) = first.chars ++ (part.groupText ++ segmentText part.after parts) := by
      simp [segmentText, Part.text]
    rw [written]
    exact (Passed.of_plain first.plain).append ((Passed.of_group fun c => Padded.inside).append (ih part.after))

/-- The variants of a segment. -/
def Segment.variants (s : Segment) : List (List Char) := (positionsOf s.parts).map (variantAt s.first s.parts)

theorem Segment.enumerates (s : Segment) : s.Enumerates (s.variants.map String.ofList) :=
  ⟨positionsOf s.parts, pairwise_positionsOf s.parts, fun _ => mem_positionsOf, List.map_map⟩

/-- The segments that are found in a list are those that it was written with, without the blanks around them. -/
theorem exists_segments (segments : List (Padded Segment)) : ∃ texts, segments? 0 (listText segments) = some texts ∧
    (texts.map trim).filter (fun text => !text.isEmpty) = segments.map fun s => segmentText s.content.first s.content.parts := by
  by_cases empty : segments = []
  · exact empty ▸ ⟨[[]], rfl, rfl⟩
  · refine ⟨_, segments?_intercalate (by simpa using empty) fun text isSegment => ?_, ?_⟩
    · obtain ⟨s, -, rfl⟩ := List.mem_map.mp isSegment
      have blanks {cs : List Char} (blank : AllBlank cs) : Passed cs :=
        .of_plain fun c member sign => notMem_of_isBlank (blank c member) (by simp [sign])
      exact ((blanks s.blank).append (passed_segmentText s.content.first s.content.parts)).append (blanks s.blank')
    · have trimmed : segments.map (trim ∘ fun s => s.text fun s => segmentText s.first s.parts) =
          segments.map fun s => segmentText s.content.first s.content.parts :=
        List.map_congr_left fun s _ => s.trim_text s.content.bare
      rw [List.map_map, trimmed]
      refine List.filter_eq_self.mpr fun text isSegment => ?_
      obtain ⟨s, -, rfl⟩ := List.mem_map.mp isSegment
      simpa using s.content.nonempty

/-- An inline list stands for the names of its segments one after the other, and there is one name of a segment for every choice of one
position in each of its groups, in lexicographic order. -/
theorem expand_listText (segments : List (Padded Segment)) : ∃ names : List (List String),
    List.Forall₂ (fun s names => s.content.Enumerates names) segments names ∧
      expand (String.ofList (listText segments)) = .ok names.flatten := by
  refine ⟨segments.map fun s => s.content.variants.map String.ofList, ?_, ?_⟩
  · rw [List.forall₂_map_right_iff, List.forall₂_same]
    exact fun s _ => s.content.enumerates
  · obtain ⟨texts, found, named⟩ := exists_segments segments
    have expanded : (segments.map fun s => segmentText s.content.first s.content.parts).mapM InlineList.variants =
        .ok (segments.map fun s => s.content.variants) := by
      rw [List.mapM_map]
      have each : (InlineList.variants ∘ fun s : Padded Segment => segmentText s.content.first s.content.parts) =
          fun s => pure s.content.variants := funext fun s => variants_segmentText s.content.first s.content.parts
      rw [each, List.mapM_pure]
      rfl
    rw [expand, String.toList_ofList, found]
    dsimp only
    rw [named, expanded]
    change Except.ok _ = Except.ok _
    rw [List.map_flatten, List.map_map]
    rfl

/-- Two tables in each of two data sources. -/
def tablesOfOrders : List (Padded Segment) :=
  let bound (c : Char) (i : Int64) (decimal : IsDecimal [c] i.toInt) : Bound := ⟨[c], i, decimal⟩
  let item (c : Char) (plain : ∀ c' ∈ [c], c' ∉ '[' :: ']' :: special) (noBlank : isBlank c = false) : Item :=
    ⟨[c], List.cons_ne_nil _ _, plain, .of_noBlank (by simpa using noBlank)⟩
  [⟨[], ⟨⟨['d', 's'], by simp [special]⟩,
      [⟨⟨[], .range (bound '0' 0 (.unsigned ⟨nofun, by simp⟩)) (bound '1' 1 (.unsigned ⟨nofun, by simp⟩)) [] [] nofun nofun
          (by decide), [], nofun, nofun⟩, ⟨['.'], by simp [special]⟩⟩,
        ⟨⟨[], .list [⟨[], item 'a' (by simp [special]) rfl, [], nofun, nofun⟩,
          ⟨[' '], item 'b' (by simp [special]) rfl, [], by simp [AllBlank, isBlank, blankRanges], nofun⟩] (by simp), [], nofun, nofun⟩,
          ⟨[], nofun⟩⟩],
      by simp [segmentText], ⟨by rintro c ⟨⟩; rfl, by rintro c ⟨⟩; rfl⟩⟩, [], nofun, nofun⟩]

/-- The choice from the last group changes first. -/
theorem expand_listText_orders : String.ofList (listText tablesOfOrders) = "ds$\x7b0..1\x7d.$\x7b[a, b]\x7d" ∧
    ∃ names : List (List String), List.Forall₂ (fun s names => s.content.Enumerates names) tablesOfOrders names ∧
      names.flatten = ["ds0.a", "ds0.b", "ds1.a", "ds1.b"] := by
  have written : String.ofList (listText tablesOfOrders) = "ds$\x7b0..1\x7d.$\x7b[a, b]\x7d" := by decide +kernel
  have expanded : expand "ds$\x7b0..1\x7d.$\x7b[a, b]\x7d" = .ok ["ds0.a", "ds0.b", "ds1.a", "ds1.b"] := by cbv
  obtain ⟨names, enumerated, found⟩ := expand_listText tablesOfOrders
  rw [written, expanded] at found
  exact ⟨written, names, enumerated, (Except.ok.inj found).symm⟩

end SqlSharding.Routing.InlineList
