/-!
# Names and pieces of texts

Names that differ in the case of letters only, texts without the blanks at their ends, and texts cut at the first or at every
occurrence of a separator.
-/

namespace SqlSharding.Text

/-! ## Letter case -/

/-- The text with the letters `A` to `Z` in lower case; other letters have no case. -/
def lower (s : String) : String := s.map Char.toLower

def upper (s : String) : String := s.map Char.toUpper

/-- Whether two names are the same but for the case of their letters. -/
def sameName (s t : String) : Bool := lower s = lower t

/-! ## Blanks -/

/-- The characters with the Unicode property `White_Space`, as inclusive ranges of code points. -/
def blankRanges : List (Nat × Nat) :=
  [(0x09, 0x0D), (0x20, 0x20), (0x85, 0x85), (0xA0, 0xA0), (0x1680, 0x1680), (0x2000, 0x200A),
   (0x2028, 0x2029), (0x202F, 0x202F), (0x205F, 0x205F), (0x3000, 0x3000)]

def isBlank (c : Char) : Bool := blankRanges.any fun (first, last) => first ≤ c.toNat && c.toNat ≤ last

def trimStart (cs : List Char) : List Char := cs.dropWhile isBlank

def trimEnd (cs : List Char) : List Char := (cs.reverse.dropWhile isBlank).reverse

/-- The text without the blanks before and after it. -/
def trim (cs : List Char) : List Char := trimEnd (trimStart cs)

/-! ## Cutting -/

/-- The text before and after the first occurrence of a separator. -/
def cut? (separator : List Char) : List Char → Option (List Char × List Char)
  | [] => if separator.isEmpty then some ([], []) else none
  | c :: cs =>
    if separator.isPrefixOf (c :: cs) then some ([], (c :: cs).drop separator.length)
    else (cut? separator cs).map fun (before, after) => (c :: before, after)

/-- The pieces between the occurrences of a character. -/
def pieces (separator : Char) : List Char → List (List Char)
  | [] => [[]]
  | c :: cs =>
    if c = separator then [] :: pieces separator cs
    else
      match pieces separator cs with
      | [] => [[c]]
      | piece :: rest => (c :: piece) :: rest

theorem cut?_length {separator before after : List Char} : {cs : List Char} →
    cut? separator cs = some (before, after) → before.length + separator.length + after.length = cs.length := by
  intro cs
  induction cs generalizing before after with
  | nil => cases separator <;> grind [cut?]
  | cons c cs ih =>
    rw [cut?]
    split
    · next h =>
      rintro ⟨rfl, rfl⟩
      have := (List.isPrefixOf_iff_prefix.mp h).length_le
      simp only [List.length_nil, List.length_drop]
      omega
    · intro h
      obtain ⟨⟨b, a⟩, hb, he⟩ := Option.map_eq_some_iff.mp h
      have := ih hb
      grind

end SqlSharding.Text
