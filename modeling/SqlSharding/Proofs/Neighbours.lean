import Mathlib
import SqlSharding.Proofs.Layout

/-!
# Neighbours of a token

Where a token ends is decided by a few characters behind it. This module says which characters are of one kind for that
decision, and when one text can take the place of another one behind every token without running into it.
-/

namespace SqlSharding.Sql

/-! ## Characters -/

theorem isDigit_iff (c : Char) : c.isDigit = true ↔ 48 ≤ c.toNat ∧ c.toNat ≤ 57 := by
  simp only [Char.isDigit, Bool.and_eq_true, decide_eq_true_eq]
  rfl

theorem isAlpha_iff (c : Char) :
    c.isAlpha = true ↔ (65 ≤ c.toNat ∧ c.toNat ≤ 90) ∨ (97 ≤ c.toNat ∧ c.toNat ≤ 122) := by
  simp only [Char.isAlpha, Char.isUpper, Char.isLower, Bool.or_eq_true, Bool.and_eq_true, decide_eq_true_eq]
  rfl

theorem isHexDigit_iff (c : Char) : Text.isHexDigit c = true ↔
    (48 ≤ c.toNat ∧ c.toNat ≤ 57) ∨ (65 ≤ c.toNat ∧ c.toNat ≤ 70) ∨ (97 ≤ c.toNat ∧ c.toNat ≤ 102) := by
  have small : ('a' ≤ c ∧ c ≤ 'f') ↔ 97 ≤ c.toNat ∧ c.toNat ≤ 102 := Iff.rfl
  have capital : ('A' ≤ c ∧ c ≤ 'F') ↔ 65 ≤ c.toNat ∧ c.toNat ≤ 70 := Iff.rfl
  simp only [Text.isHexDigit, Bool.or_eq_true, Bool.and_eq_true, decide_eq_true_eq, isDigit_iff, small, capital]
  omega

theorem toNat_toLower (c : Char) :
    c.toLower.toNat = if 65 ≤ c.toNat ∧ c.toNat ≤ 90 then c.toNat + 32 else c.toNat := by
  rw [Char.toLower]
  split
  · next capital =>
    have first : 65 ≤ c.toNat := capital.1
    have last : c.toNat ≤ 90 := capital.2
    rw [if_pos ⟨first, last⟩]
    change (c.val + 32).toNat = _
    have same : c.val.toNat = c.toNat := rfl
    rw [UInt32.toNat_add, same]
    have small : c.toNat + 32 < 2 ^ 32 := by omega
    exact Nat.mod_eq_of_lt small
  · next other =>
    rw [if_neg]
    exact other

theorem ne_of_isDigit {c sign : Char} (digit : c.isDigit = true) (noDigit : sign.isDigit = false) :
    c ≠ sign := by
  rintro rfl
  rw [digit] at noDigit
  cases noDigit

/-- Characters that are the same letter, or the same sign. -/
def SameLetter (c c' : Char) : Prop := c.toLower = c'.toLower

instance (c c' : Char) : Decidable (SameLetter c c') := inferInstanceAs (Decidable (c.toLower = c'.toLower))

theorem SameLetter.cases {c c' : Char} (same : SameLetter c c') :
    c = c' ∨ c.isAlpha = true ∧ c'.isAlpha = true ∧ (c.toNat = c'.toNat + 32 ∨ c'.toNat = c.toNat + 32) := by
  have numbers := congrArg Char.toNat same
  rw [toNat_toLower, toNat_toLower] at numbers
  rw [isAlpha_iff, isAlpha_iff, ← Char.toNat_inj]
  split at numbers <;> split at numbers <;> omega

/-- The signs behind an element of a list in parentheses. -/
def isListSign (c : Char) : Bool := c = ',' || c = ')'

/-- A sign that ends tokens as no other character does. -/
def isOwnSign (c : Char) : Bool := !c.isAlpha && !c.isDigit && !isListSign c

theorem isListSign_iff (c : Char) : isListSign c = true ↔ c.toNat = 44 ∨ c.toNat = 41 := by
  have comma : c = ',' ↔ c.toNat = 44 := Char.toNat_inj.symm
  have closing : c = ')' ↔ c.toNat = 41 := Char.toNat_inj.symm
  simp only [isListSign, Bool.or_eq_true, decide_eq_true_eq, comma, closing]

/-- Characters that end a token alike: the same letter in any case, the same sign, two digits, or two signs behind an
element of a list. -/
def Kin (c c' : Char) : Prop :=
  SameLetter c c' ∨ c.isDigit = true ∧ c'.isDigit = true ∨ isListSign c = true ∧ isListSign c' = true

namespace Kin

variable {c c' : Char}

@[refl] protected theorem refl (c : Char) : Kin c c := .inl rfl

/-- All that is asked of related characters depends on their numbers. -/
theorem toNat_cases (kin : Kin c c') : c = c' ∨
    ((65 ≤ c.toNat ∧ c.toNat ≤ 90) ∧ c'.toNat = c.toNat + 32) ∨
    ((65 ≤ c'.toNat ∧ c'.toNat ≤ 90) ∧ c.toNat = c'.toNat + 32) ∨
    ((48 ≤ c.toNat ∧ c.toNat ≤ 57) ∧ 48 ≤ c'.toNat ∧ c'.toNat ≤ 57) ∨
    ((c.toNat = 44 ∨ c.toNat = 41) ∧ (c'.toNat = 44 ∨ c'.toNat = 41)) := by
  rcases kin with same | ⟨digit, digit'⟩ | ⟨sign, sign'⟩
  · rcases same.cases with equal | ⟨letter, letter', number⟩
    · exact .inl equal
    · rw [isAlpha_iff] at letter letter'
      omega
  · rw [isDigit_iff] at digit digit'
    omega
  · rw [isListSign_iff] at sign sign'
    omega

theorem isDigit_eq (kin : Kin c c') : c.isDigit = c'.isDigit := by
  rw [Bool.eq_iff_iff, isDigit_iff, isDigit_iff]
  rcases kin.toNat_cases with rfl | number
  · rfl
  · omega

theorem isAlpha_eq (kin : Kin c c') : c.isAlpha = c'.isAlpha := by
  rw [Bool.eq_iff_iff, isAlpha_iff, isAlpha_iff]
  rcases kin.toNat_cases with rfl | number
  · rfl
  · omega

theorem isHexDigit_eq (kin : Kin c c') : Text.isHexDigit c = Text.isHexDigit c' := by
  rcases kin with same | ⟨digit, digit'⟩ | ⟨sign, sign'⟩
  · rcases same.cases with rfl | ⟨letter, letter', number⟩
    · rfl
    · rw [isAlpha_iff] at letter letter'
      rw [Bool.eq_iff_iff, isHexDigit_iff, isHexDigit_iff]
      omega
  · rw [Text.isHexDigit, Text.isHexDigit, digit, digit']
    rfl
  · rw [isListSign_iff] at sign sign'
    rw [Bool.eq_iff_iff, isHexDigit_iff, isHexDigit_iff]
    omega

/-- Another sign is related to itself only. -/
theorem eq_iff (kin : Kin c c') {sign : Char} (own : isOwnSign sign = true) : c = sign ↔ c' = sign := by
  simp only [isOwnSign, Bool.and_eq_true, Bool.not_eq_true', ← Bool.not_eq_true, isAlpha_iff, isDigit_iff,
    isListSign_iff] at own
  rw [← Char.toNat_inj, ← Char.toNat_inj]
  rcases kin.toNat_cases with rfl | number
  · rfl
  · omega

theorem isWordStart_eq (kin : Kin c c') : isWordStart c = isWordStart c' := by
  have underscore : c = '_' ↔ c' = '_' := kin.eq_iff (by decide)
  have beyond : 0x80 ≤ c.toNat ↔ 0x80 ≤ c'.toNat := by
    rcases kin.toNat_cases with rfl | number
    · rfl
    · omega
  simp only [isWordStart, kin.isAlpha_eq, underscore, beyond]

theorem isWordPart_eq (kin : Kin c c') : isWordPart c = isWordPart c' := by
  have start := kin.isWordStart_eq
  have dollar : c = '$' ↔ c' = '$' := kin.eq_iff (by decide)
  have underscore : c = '_' ↔ c' = '_' := kin.eq_iff (by decide)
  have beyond : 0x80 ≤ c.toNat ↔ 0x80 ≤ c'.toNat := by
    rcases kin.toNat_cases with rfl | number
    · rfl
    · omega
  simp only [isWordPart, isAsciiAlphanumeric, kin.isAlpha_eq, kin.isDigit_eq, underscore, dollar, beyond]

theorem isVariablePart_eq (kin : Kin c c') : isVariablePart c = isVariablePart c' := by
  have dollar : c = '$' ↔ c' = '$' := kin.eq_iff (by decide)
  have underscore : c = '_' ↔ c' = '_' := kin.eq_iff (by decide)
  have dot : c = '.' ↔ c' = '.' := kin.eq_iff (by decide)
  simp only [isVariablePart, isAsciiAlphanumeric, kin.isAlpha_eq, kin.isDigit_eq, underscore, dollar, dot]

end Kin

/-- Two letters of one word stay the letters of a number. -/
theorem SameLetter.letter_iff {c c' : Char} (same : SameLetter c c') {small capital : Char}
    (pair : capital.toNat + 32 = small.toNat ∧ capital.isUpper = true) :
    (c = small ∨ c = capital) ↔ c' = small ∨ c' = capital := by
  obtain ⟨number, isUpper⟩ := pair
  have bounds : 65 ≤ capital.toNat ∧ capital.toNat ≤ 90 := by
    simp only [Char.isUpper, decide_eq_true_eq] at isUpper
    exact isUpper
  rw [← Char.toNat_inj, ← Char.toNat_inj, ← Char.toNat_inj, ← Char.toNat_inj]
  rcases same.cases with rfl | ⟨letter, letter', apart⟩
  · rfl
  · rw [isAlpha_iff] at letter letter'
    omega

/-! ## Beginnings of numbers -/

def startsDigit (cs : List Char) : Bool := cs.head?.any Char.isDigit

/-- Whether a text could go on a number as its fraction. -/
def startsFraction : List Char → Bool
  | c :: cs => c = '.' && startsDigit cs
  | [] => false

/-- Whether a text could go on an exponent mark. -/
def startsPower : List Char → Bool
  | c :: cs => if c = '-' || c = '+' then startsDigit cs else c.isDigit
  | [] => false

/-- Whether a text could go on a number as its exponent. -/
def startsExponent : List Char → Bool
  | c :: cs => (c = 'e' || c = 'E') && startsPower cs
  | [] => false

/-- Whether a text could go on a zero as a hexadecimal number. -/
def startsHexadecimal : List Char → Bool
  | c :: cs => (c = 'x' || c = 'X') && cs.head?.any Text.isHexDigit
  | [] => false

theorem takeWhile_eq_nil_iff {p : Char → Bool} {cs : List Char} : cs.takeWhile p = [] ↔ cs.head?.any p = false := by
  cases cs with
  | nil => simp
  | cons c cs => cases holds : p c <;> simp [holds]

theorem takeWhile_isEmpty {p : Char → Bool} {cs : List Char} : (cs.takeWhile p).isEmpty = !cs.head?.any p := by
  rw [Bool.eq_iff_iff, List.isEmpty_iff, takeWhile_eq_nil_iff]
  simp

theorem fractionPart?_eq_none {cs : List Char} : fractionPart? cs = none ↔ startsFraction cs = false := by
  unfold fractionPart?
  split
  · simp only [takeWhile_isEmpty, startsFraction, startsDigit]
    cases Option.any Char.isDigit _ <;> simp
  · next other =>
    cases cs with
    | nil => simp [startsFraction]
    | cons c cs =>
      have : c ≠ '.' := fun isDot => other cs (by rw [isDot])
      simp [startsFraction, this]

theorem exponentPart?_eq_none {cs : List Char} : exponentPart? cs = none ↔ startsPower cs = false := by
  unfold exponentPart?
  split
  · simp only [takeWhile_isEmpty, startsPower, startsDigit]
    cases Option.any Char.isDigit _ <;> simp
  · simp only [takeWhile_isEmpty, startsPower, startsDigit]
    cases Option.any Char.isDigit _ <;> simp
  · next noMinus noPlus =>
    simp only [takeWhile_isEmpty]
    cases cs with
    | nil => simp [startsPower]
    | cons c cs =>
      have minus : c ≠ '-' := fun is => noMinus cs (by rw [is])
      have plus : c ≠ '+' := fun is => noPlus cs (by rw [is])
      cases digit : c.isDigit <;> simp [startsPower, minus, plus, digit]

theorem markedExponent?_eq_none {cs : List Char} : markedExponent? cs = none ↔ startsExponent cs = false := by
  cases cs with
  | nil => simp [markedExponent?, startsExponent]
  | cons c cs =>
    rw [markedExponent?, startsExponent]
    split
    · next mark => rw [Option.map_eq_none_iff, exponentPart?_eq_none, mark, Bool.true_and]
    · next other => simp [other]

/-! ## Texts that resemble each other -/

/-- A text can stand behind a token in place of another one: it begins with a character of the same kind, and it is no
part of a number where the other one is none. -/
structure Resembles (r r' : List Char) : Prop where
  head : Option.Rel Kin r.head? r'.head?
  fraction : startsFraction r' = true → startsFraction r = true
  power : startsPower r' = true → startsPower r = true
  exponent : startsExponent r' = true → startsExponent r = true
  hexadecimal : startsHexadecimal r' = true → startsHexadecimal r = true

namespace Resembles

variable {c c' : Char} {r r' : List Char}

theorem any_eq (resembles : Resembles r r') {p : Char → Bool} (respects : ∀ {c c'}, Kin c c' → p c = p c') :
    r.head?.any p = r'.head?.any p := by
  have head := resembles.head
  generalize r.head? = first, r'.head? = first' at head
  cases head with
  | none => rfl
  | some kin => exact respects kin

/-- A sign that follows now followed before. -/
theorem head?_of_sign (resembles : Resembles r r') {sign : Char} (next : r'.head? = some sign)
    (own : isOwnSign sign = true) : r.head? = some sign := by
  have head := resembles.head
  rw [next] at head
  generalize r.head? = first at head ⊢
  cases head with
  | some kin => rw [(kin.eq_iff own).mpr rfl]

theorem startsDigit_eq (resembles : Resembles r r') : startsDigit r = startsDigit r' := resembles.any_eq (·.isDigit_eq)

@[refl] protected theorem refl (r : List Char) : Resembles r r :=
  ⟨by cases r.head? <;> constructor; rfl, id, id, id, id⟩

/-- Nothing that could go on a number begins with other signs. -/
theorem of_sign {sign : Char} (noDigit : sign.isDigit = false)
    (other : sign ∉ ['.', '+', '-', 'e', 'E', 'x', 'X']) : Resembles (sign :: r) (sign :: r') := by
  simp only [List.mem_cons, List.not_mem_nil, or_false, not_or] at other
  obtain ⟨dot, plus, minus, small, capital, smallX, capitalX⟩ := other
  refine ⟨.some (.refl sign), fun starts => ?_, fun starts => ?_, fun starts => ?_, fun starts => ?_⟩
  · simp [startsFraction, dot] at starts
  · simp [startsPower, plus, minus, noDigit] at starts
  · simp [startsExponent, small, capital] at starts
  · simp [startsHexadecimal, smallX, capitalX] at starts

theorem of_digits (digit : c.isDigit = true) (digit' : c'.isDigit = true) : Resembles (c :: r) (c' :: r') := by
  have dot : c' ≠ '.' := ne_of_isDigit digit' (by decide)
  have minus : c ≠ '-' := ne_of_isDigit digit (by decide)
  have plus : c ≠ '+' := ne_of_isDigit digit (by decide)
  have smallE : c' ≠ 'e' := ne_of_isDigit digit' (by decide)
  have capitalE : c' ≠ 'E' := ne_of_isDigit digit' (by decide)
  have smallX : c' ≠ 'x' := ne_of_isDigit digit' (by decide)
  have capitalX : c' ≠ 'X' := ne_of_isDigit digit' (by decide)
  refine ⟨.some (.inr (.inl ⟨digit, digit'⟩)), fun starts => ?_, fun _ => ?_, fun starts => ?_, fun starts => ?_⟩
  · simp [startsFraction, dot] at starts
  · simp [startsPower, minus, plus, digit]
  · simp [startsExponent, smallE, capitalE] at starts
  · simp [startsHexadecimal, smallX, capitalX] at starts

/-- A list may go on where it ended. -/
theorem of_comma : Resembles (')' :: r) (',' :: r') := by
  refine ⟨.some (.inr (.inr ⟨rfl, rfl⟩)), fun starts => ?_, fun starts => ?_, fun starts => ?_, fun starts => ?_⟩
  · simp [startsFraction] at starts
  · simp [startsPower] at starts
  · simp [startsExponent] at starts
  · simp [startsHexadecimal] at starts

/-- The same letter before texts that resemble each other. -/
theorem cons (same : SameLetter c c') (resembles : Resembles r r') : Resembles (c :: r) (c' :: r') := by
  have kin : Kin c c' := .inl same
  have digits := resembles.startsDigit_eq
  have dot : c = '.' ↔ c' = '.' := kin.eq_iff (by decide)
  have minus : c = '-' ↔ c' = '-' := kin.eq_iff (by decide)
  have plus : c = '+' ↔ c' = '+' := kin.eq_iff (by decide)
  have markE : (c = 'e' ∨ c = 'E') ↔ c' = 'e' ∨ c' = 'E' := same.letter_iff (by decide)
  have markX : (c = 'x' ∨ c = 'X') ↔ c' = 'x' ∨ c' = 'X' := same.letter_iff (by decide)
  refine ⟨.some kin, fun starts => ?_, fun starts => ?_, fun starts => ?_, fun starts => ?_⟩
  · simp only [startsFraction, Bool.and_eq_true, decide_eq_true_eq] at starts ⊢
    exact ⟨dot.mpr starts.1, digits.trans starts.2⟩
  · simpa only [startsPower, minus, plus, digits, kin.isDigit_eq] using starts
  · simp only [startsExponent, Bool.and_eq_true, Bool.or_eq_true, decide_eq_true_eq] at starts ⊢
    exact ⟨markE.mpr starts.1, resembles.power starts.2⟩
  · simp only [startsHexadecimal, Bool.and_eq_true, Bool.or_eq_true, decide_eq_true_eq] at starts ⊢
    exact ⟨markX.mpr starts.1, (resembles.any_eq (·.isHexDigit_eq)).trans starts.2⟩

theorem append (source : List Char) (resembles : Resembles r r') : Resembles (source ++ r) (source ++ r') := by
  induction source with
  | nil => exact resembles
  | cons c source ih => exact ih.cons rfl

/-- A word resembles a longer one that goes on with an underscore. -/
theorem of_word {word word' : List Char} (nonempty : word ≠ []) (same : List.Forall₂ SameLetter word word')
    (parts : ∀ c ∈ word, isWordPart c = true) : Resembles (word ++ r) (word' ++ '_' :: r') := by
  induction same with
  | nil => exact absurd rfl nonempty
  | @cons c c' word word' letter rest ih =>
    cases rest with
    | cons => exact (ih (List.cons_ne_nil _ _) fun d member => parts d (List.mem_cons_of_mem c member)).cons letter
    | nil =>
      have kin : Kin c c' := .inl letter
      have part := parts c List.mem_cons_self
      have other {sign : Char} (noPart : isWordPart sign = false) : c ≠ sign := by
        rintro rfl
        rw [part] at noPart
        cases noPart
      have point : c ≠ '.' := other (by decide)
      have dot : c' ≠ '.' := fun is => point ((kin.eq_iff (by decide)).mpr is)
      have minus : c ≠ '-' := other (by decide)
      have plus : c ≠ '+' := other (by decide)
      refine ⟨.some kin, fun starts => ?_, fun starts => ?_, fun starts => ?_, fun starts => ?_⟩
      · simp [startsFraction, dot] at starts
      · have minus' : c' ≠ '-' := fun is => minus ((kin.eq_iff (by decide)).mpr is)
        have plus' : c' ≠ '+' := fun is => plus ((kin.eq_iff (by decide)).mpr is)
        simpa [startsPower, minus, plus, minus', plus', kin.isDigit_eq] using starts
      · simp [startsExponent, startsPower] at starts
      · simp [startsHexadecimal, Text.isHexDigit] at starts

end Resembles

/-! ## Texts that can follow a token -/

/-- A text can stand behind a token in place of another one if it resembles that one. So can white space and the end of the
text, which do not go on any token. -/
inductive Replaces (r : List Char) : List Char → Prop
  | like {r' : List Char} (resembles : Resembles r r') : Replaces r r'
  | space {c : Char} {r' : List Char} (blank : isSpace c = true) : Replaces r (c :: r')
  | nothing : Replaces r []

/-- White space is one of five characters. -/
theorem eq_of_isSpace {c : Char} (blank : isSpace c = true) : c = ' ' ∨ c = '\t' ∨ c = '\n' ∨ c = '\x0C' ∨ c = '\r' := by
  simpa [isSpace, or_assoc] using blank

/-- No number goes on with white space. -/
theorem starts_space {c : Char} {r : List Char} (blank : isSpace c = true) : startsFraction (c :: r) = false ∧
    startsPower (c :: r) = false ∧ startsExponent (c :: r) = false ∧ startsHexadecimal (c :: r) = false := by
  rcases eq_of_isSpace blank with rfl | rfl | rfl | rfl | rfl <;> exact ⟨rfl, rfl, rfl, rfl⟩

namespace Replaces

variable {r r' : List Char} (replaces : Replaces r r')

include replaces

/-- A character of a kind that is no white space was there before. -/
theorem any {p : Char → Bool} (respects : ∀ {c c'}, Kin c c' → p c = p c') (noSpace : ∀ c, isSpace c = true → p c = false)
    (starts : r'.head?.any p = true) : r.head?.any p = true := by
  cases replaces with
  | like resembles => exact (resembles.any_eq respects).trans starts
  | space blank =>
    rw [List.head?_cons, Option.any_some, noSpace _ blank] at starts
    cases starts
  | nothing => cases starts

/-- A sign that follows now followed before. -/
theorem head?_of_sign {sign : Char} (next : r'.head? = some sign) (own : isOwnSign sign = true)
    (noSpace : isSpace sign = false) : r.head? = some sign := by
  cases replaces with
  | like resembles => exact resembles.head?_of_sign next own
  | space blank =>
    rw [← Option.some.inj next, blank] at noSpace
    cases noSpace
  | nothing => cases next

theorem fraction (starts : startsFraction r' = true) : startsFraction r = true := by
  cases replaces with
  | like resembles => exact resembles.fraction starts
  | space blank => exact nomatch (starts_space blank).1.symm.trans starts
  | nothing => cases starts

theorem power (starts : startsPower r' = true) : startsPower r = true := by
  cases replaces with
  | like resembles => exact resembles.power starts
  | space blank => exact nomatch (starts_space blank).2.1.symm.trans starts
  | nothing => cases starts

theorem exponent (starts : startsExponent r' = true) : startsExponent r = true := by
  cases replaces with
  | like resembles => exact resembles.exponent starts
  | space blank => exact nomatch (starts_space blank).2.2.1.symm.trans starts
  | nothing => cases starts

theorem hexadecimal (starts : startsHexadecimal r' = true) : startsHexadecimal r = true := by
  cases replaces with
  | like resembles => exact resembles.hexadecimal starts
  | space blank => exact nomatch (starts_space blank).2.2.2.symm.trans starts
  | nothing => cases starts

theorem digit (starts : startsDigit r' = true) : startsDigit r = true := by
  refine replaces.any (·.isDigit_eq) (fun c blank => ?_) starts
  rcases eq_of_isSpace blank with rfl | rfl | rfl | rfl | rfl <;> rfl

theorem hexDigit (starts : r'.head?.any Text.isHexDigit = true) : r.head?.any Text.isHexDigit = true := by
  refine replaces.any (·.isHexDigit_eq) (fun c blank => ?_) starts
  rcases eq_of_isSpace blank with rfl | rfl | rfl | rfl | rfl <;> rfl

theorem wordPart (starts : r'.head?.any isWordPart = true) : r.head?.any isWordPart = true := by
  refine replaces.any (·.isWordPart_eq) (fun c blank => ?_) starts
  rcases eq_of_isSpace blank with rfl | rfl | rfl | rfl | rfl <;> rfl

theorem variablePart (starts : r'.head?.any isVariablePart = true) : r.head?.any isVariablePart = true := by
  refine replaces.any (·.isVariablePart_eq) (fun c blank => ?_) starts
  rcases eq_of_isSpace blank with rfl | rfl | rfl | rfl | rfl <;> rfl

/-- Behind a character that stays, one text resembles the other. -/
theorem cons (c : Char) : Resembles (c :: r) (c :: r') where
  head := .some (.refl c)
  fraction starts := by
    simp only [startsFraction, Bool.and_eq_true] at starts ⊢
    exact ⟨starts.1, replaces.digit starts.2⟩
  power starts := by
    rw [startsPower] at starts ⊢
    split at starts
    · next sign =>
      rw [if_pos sign]
      exact replaces.digit starts
    · next noSign =>
      rw [if_neg noSign]
      exact starts
  exponent starts := by
    simp only [startsExponent, Bool.and_eq_true] at starts ⊢
    exact ⟨starts.1, replaces.power starts.2⟩
  hexadecimal starts := by
    simp only [startsHexadecimal, Bool.and_eq_true] at starts ⊢
    exact ⟨starts.1, replaces.hexDigit starts.2⟩

theorem append (source : List Char) : Replaces (source ++ r) (source ++ r') := by
  cases source with
  | nil => exact replaces
  | cons c source =>
    induction source generalizing c with
    | nil => exact .like (replaces.cons c)
    | cons x source ih =>
      exact .like ((ih x).cons c)

end Replaces

end SqlSharding.Sql
