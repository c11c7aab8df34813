import Mathlib
import SqlSharding.Text.Pieces

/-!
# Texts put together and taken apart

A text between blanks is what trimming leaves, a text in front of a separator is what cutting finds, and texts that are joined by a
separator are its pieces again.
-/

namespace SqlSharding.Text

variable {c separator : Char} {cs before after rest : List Char}

/-! ## Blanks -/

/-- A text of blanks alone. -/
def AllBlank (cs : List Char) : Prop := ∀ c ∈ cs, isBlank c = true

theorem allBlank_nil : AllBlank [] := nofun

/-- A text without blanks at its ends. -/
structure IsBare (cs : List Char) : Prop where
  first : ∀ c ∈ cs.head?, isBlank c = false
  last : ∀ c ∈ cs.getLast?, isBlank c = false

theorem isBlank_eq_false (printable : 0x20 < c.toNat ∧ c.toNat < 0x80) : isBlank c = false := by
  simp only [isBlank, blankRanges, List.any_cons, List.any_nil, Bool.or_false, Bool.or_eq_false_iff, Bool.and_eq_false_iff,
    decide_eq_false_iff_not]
  omega

namespace IsBare

theorem of_noBlank (noBlank : ∀ c ∈ cs, isBlank c = false) : IsBare cs where
  first c isFirst := noBlank c (List.mem_of_mem_head? isFirst)
  last c isLast := noBlank c (List.mem_of_mem_getLast? isLast)

/-- What stands inside a text does not matter. -/
theorem append (bare : IsBare before) (bare' : IsBare after) (nonempty : before ≠ []) (nonempty' : after ≠ []) (inside : List Char) :
    IsBare (before ++ inside ++ after) where
  first := by
    rw [List.append_assoc, List.head?_append_of_ne_nil _ nonempty]
    exact bare.first
  last := by
    rw [List.getLast?_append_of_ne_nil _ nonempty']
    exact bare'.last

end IsBare

theorem dropWhile_blank (blank : AllBlank before) (first : ∀ c ∈ cs.head?, isBlank c = false) :
    (before ++ cs).dropWhile isBlank = cs := by
  rw [List.dropWhile_append_of_pos blank]
  cases cs with
  | nil => rfl
  | cons c cs => rw [List.dropWhile_cons_of_neg (by simp [first c rfl])]

/-- Trimming takes the blanks around a text and nothing of the text. -/
theorem trim_padded (blank : AllBlank before) (blank' : AllBlank after) (bare : IsBare cs) : trim (before ++ cs ++ after) = cs := by
  by_cases empty : cs = []
  · have all : AllBlank (before ++ after) := fun c member => (List.mem_append.mp member).elim (blank c) (blank' c)
    have nothing : (before ++ after).dropWhile isBlank = [] := List.dropWhile_eq_nil_iff.mpr all
    rw [empty, List.append_nil, trim, trimStart, nothing]
    rfl
  · have first : ∀ c ∈ (cs ++ after).head?, isBlank c = false := by
      rw [List.head?_append_of_ne_nil _ empty]
      exact bare.first
    have blankEnd : AllBlank after.reverse := fun c member => blank' c (List.mem_reverse.mp member)
    have last : ∀ c ∈ cs.reverse.head?, isBlank c = false := by
      rw [List.head?_reverse]
      exact bare.last
    rw [trim, trimStart, List.append_assoc, dropWhile_blank blank first, trimEnd, List.reverse_append, dropWhile_blank blankEnd last,
      List.reverse_reverse]

/-! ## Separators -/

/-- The first occurrence of a separator is found where its first character stands for the first time. -/
theorem cut?_append (absent : c ∉ before) : cut? (c :: rest) (before ++ (c :: rest ++ after)) = some (before, after) := by
  induction before with
  | nil => simp [cut?]
  | cons x before ih =>
    have other : c ≠ x := fun same => absent (same ▸ List.mem_cons_self)
    rw [List.cons_append, cut?, if_neg (by simp [other]), ih fun inside => absent (List.mem_cons_of_mem x inside)]
    rfl

theorem cut?_eq_none (absent : c ∉ cs) : cut? (c :: rest) cs = none := by
  induction cs with
  | nil => rfl
  | cons x cs ih =>
    have other : c ≠ x := fun same => absent (same ▸ List.mem_cons_self)
    rw [cut?, if_neg (by simp [other]), ih fun inside => absent (List.mem_cons_of_mem x inside)]
    rfl

theorem pieces_of_notMem (absent : separator ∉ cs) : pieces separator cs = [cs] := by
  induction cs with
  | nil => rfl
  | cons x cs ih =>
    have other : x ≠ separator := fun same => absent (same ▸ List.mem_cons_self)
    rw [pieces, if_neg other, ih fun inside => absent (List.mem_cons_of_mem x inside)]

theorem pieces_append (absent : separator ∉ before) (after : List Char) :
    pieces separator (before ++ separator :: after) = before :: pieces separator after := by
  induction before with
  | nil => rw [List.nil_append, pieces, if_pos rfl]
  | cons x before ih =>
    have other : x ≠ separator := fun same => absent (same ▸ List.mem_cons_self)
    rw [List.cons_append, pieces, if_neg other, ih fun inside => absent (List.mem_cons_of_mem x inside)]

theorem mem_of_mem_intercalate {texts : List (List Char)} (member : c ∈ List.intercalate [separator] texts) :
    c = separator ∨ ∃ text ∈ texts, c ∈ text := by
  induction texts with
  | nil => simp at member
  | cons text texts ih =>
    cases texts with
    | nil =>
      rw [List.intercalate_singleton] at member
      exact .inr ⟨text, List.mem_cons_self, member⟩
    | cons next texts =>
      rw [List.intercalate_cons_cons, List.append_assoc, List.mem_append, List.singleton_append, List.mem_cons] at member
      rcases member with here | same | later
      · exact .inr ⟨text, List.mem_cons_self, here⟩
      · exact .inl same
      · exact (ih later).imp_right fun ⟨text', found, inside⟩ => ⟨text', List.mem_cons_of_mem _ found, inside⟩

/-- Texts without the separator that are joined by it are its pieces. -/
theorem pieces_intercalate {texts : List (List Char)} (nonempty : texts ≠ []) (absent : ∀ text ∈ texts, separator ∉ text) :
    pieces separator (List.intercalate [separator] texts) = texts := by
  induction texts with
  | nil => exact absurd rfl nonempty
  | cons text texts ih =>
    have here := absent text List.mem_cons_self
    cases texts with
    | nil => rw [List.intercalate_singleton, pieces_of_notMem here]
    | cons next texts =>
      rw [List.intercalate_cons_cons, List.append_assoc, List.singleton_append, pieces_append here,
        ih (List.cons_ne_nil _ _) fun text member => absent text (List.mem_cons_of_mem _ member)]

end SqlSharding.Text
