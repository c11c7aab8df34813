import Mathlib
import SqlSharding.Numeric.Binary64
import SqlSharding.Numeric.Integers

/-!
# Whole numbers, written and as doubles

The 64-bit integer nearest to an integer is the integer cut off at the ends of the range (`toInt_clampInt64`). A number is written
as digits after at most one sign, and a 64-bit integer is read from exactly such texts (`Text.readInt64?_eq_some_iff`). A double is
a significand times the power of two of its step, and its bits hold these two in one form only (`Binary64.IsForm`). Rounding leaves
a number of that form alone, so an integer that some double holds is converted to it exactly, in particular every integer below
2^53 (`Binary64.units_ofInt`).
-/

namespace SqlSharding

theorem toInt_clampInt64 (i : Int) : (clampInt64 i).toInt = max (-(int64Bound : Int)) (min i ((int64Bound : Int) - 1)) := by
  have limit : (int64Bound : Int) = 9223372036854775808 := rfl
  rw [clampInt64]
  split
  · rw [Int64.toInt_minValue]
    omega
  · split
    · rw [Int64.toInt_ofInt_of_le (by omega) (by omega)]
      omega
    · rw [Int64.toInt_maxValue]
      omega

theorem clampInt64_toInt (i : Int64) : clampInt64 i.toInt = i := by
  have limit : (int64Bound : Int) = 9223372036854775808 := rfl
  have lower := i.le_toInt
  have upper := i.toInt_lt
  rw [← Int64.toInt_inj, toInt_clampInt64]
  omega

namespace Text

variable {cs : List Char} {n : Nat} {i : Int} {v : Int64}

/-- Digits, at least one. -/
structure IsDigits (cs : List Char) : Prop where
  nonempty : cs ≠ []
  digits : ∀ c ∈ cs, c.isDigit = true

/-- A number in decimal notation, with at most one sign. -/
inductive IsDecimal : List Char → Int → Prop
  | unsigned {cs : List Char} (digits : IsDigits cs) : IsDecimal cs (Nat.ofDigitChars 10 cs 0)
  | plus {cs : List Char} (digits : IsDigits cs) : IsDecimal ('+' :: cs) (Nat.ofDigitChars 10 cs 0)
  | minus {cs : List Char} (digits : IsDigits cs) : IsDecimal ('-' :: cs) (-(Nat.ofDigitChars 10 cs 0 : Nat))

namespace IsDecimal

theorem ne_nil (decimal : IsDecimal cs i) : cs ≠ [] := by
  cases decimal with
  | unsigned digits => exact digits.nonempty
  | plus | minus => exact List.cons_ne_nil _ _

theorem isDigit_or_sign (decimal : IsDecimal cs i) {c : Char} (member : c ∈ cs) : c.isDigit = true ∨ c = '+' ∨ c = '-' := by
  cases decimal with
  | unsigned digits => exact .inl (digits.digits c member)
  | plus digits => exact (List.mem_cons.mp member).elim (fun isSign => .inr (.inl isSign)) fun inside => .inl (digits.digits c inside)
  | minus digits => exact (List.mem_cons.mp member).elim (fun isSign => .inr (.inr isSign)) fun inside => .inl (digits.digits c inside)

end IsDecimal

theorem foldDigits_eq (cs : List Char) : foldDigits 0 cs = Nat.ofDigitChars 10 cs 0 := by
  rw [foldDigits, Nat.ofDigitChars_eq_foldl]
  simp only [Nat.mul_comm]

theorem readNat?_eq_some_iff : readNat? cs = some n ↔ IsDigits cs ∧ Nat.ofDigitChars 10 cs 0 = n := by
  rw [readNat?, foldDigits_eq]
  constructor
  · intro read
    split at read
    · cases read
    · next digits =>
      obtain ⟨nonempty, all⟩ : cs ≠ [] ∧ ∀ c ∈ cs, c.isDigit = true := by simpa using digits
      exact ⟨⟨nonempty, all⟩, Option.some.inj read⟩
  · rintro ⟨⟨nonempty, all⟩, rfl⟩
    rw [if_neg (by simpa using ⟨nonempty, all⟩)]

theorem readInt?_eq_some_iff : readInt? cs = some i ↔ IsDecimal cs i := by
  constructor
  · intro read
    unfold readInt? at read
    split at read
    all_goals
      obtain ⟨_, found, rfl⟩ := Option.map_eq_some_iff.mp read
      obtain ⟨n, digits, same⟩ := Option.bind_eq_some_iff.mp found
      obtain rfl := Option.some.inj same
      obtain ⟨isDigits, rfl⟩ := readNat?_eq_some_iff.mp digits
    · exact .minus isDigits
    · exact .plus isDigits
    · exact .unsigned isDigits
  · intro decimal
    have read {cs : List Char} (digits : IsDigits cs) : readNat? cs = some (Nat.ofDigitChars 10 cs 0) :=
      readNat?_eq_some_iff.mpr ⟨digits, rfl⟩
    cases decimal with
    | unsigned digits =>
      have noSign (c : Char) (tail : List Char) (isSign : c.isDigit = false) : cs ≠ c :: tail := by
        rintro rfl
        exact absurd (digits.digits c List.mem_cons_self) (by simp [isSign])
      rw [readInt?, read digits]
      · rfl
      · exact fun tail => noSign '-' tail rfl
      · exact fun tail => noSign '+' tail rfl
    | plus digits | minus digits =>
      rw [readInt?, read digits]
      rfl

theorem int64?_eq_some_iff : int64? i = some v ↔ v.toInt = i := by
  have lower := v.le_toInt
  have upper := v.toInt_lt
  rw [int64?]
  constructor
  · intro fits
    split at fits
    · next inRange =>
      rw [← Option.some.inj fits]
      simp only [int64Bound, Bool.and_eq_true, decide_eq_true_eq] at inRange
      exact Int64.toInt_ofInt_of_le (by omega) (by omega)
    · cases fits
  · rintro rfl
    rw [if_pos, Int64.ofInt_toInt]
    simp only [int64Bound, Bool.and_eq_true, decide_eq_true_eq]
    omega

/-- A 64-bit integer is read from the texts that are this number in decimal notation. -/
theorem readInt64?_eq_some_iff : readInt64? cs = some v ↔ IsDecimal cs v.toInt := by
  rw [readInt64?, Option.bind_eq_some_iff]
  simp only [readInt?_eq_some_iff, int64?_eq_some_iff]
  exact ⟨fun ⟨_, decimal, same⟩ => same ▸ decimal, fun decimal => ⟨_, decimal, rfl⟩⟩

end Text

namespace Binary64

variable {x : Binary64} {negative : Bool} {magnitude significand step num den : Nat} {n : Int}

/-! ## Bits -/

theorem magnitude_ofMagnitude (small : magnitude < int64Bound) : (ofMagnitude negative magnitude).magnitude = magnitude := by
  rw [Binary64.magnitude, ofMagnitude, UInt64.toNat_ofNat']
  dsimp only [int64Bound] at *
  cases negative with
  | true => rw [if_pos rfl]; omega
  | false => rw [if_neg Bool.false_ne_true]; omega

theorem isNegative_ofMagnitude (small : magnitude < int64Bound) : (ofMagnitude negative magnitude).isNegative = negative := by
  rw [isNegative, ofMagnitude, UInt64.toNat_ofNat']
  dsimp only [int64Bound] at *
  cases negative with
  | true => rw [if_pos rfl, decide_eq_true_eq]; omega
  | false => rw [if_neg Bool.false_ne_true, decide_eq_false_iff_not]; omega

/-- The form in which the bits of a finite number hold it: a significand below the smallest normal one has the smallest step. -/
structure IsForm (significand step : Nat) : Prop where
  small : significand < 2 * fractions
  normal : fractions ≤ significand ∨ step = 0
  finite : step < 2046

theorem isForm_of_isFinite (finite : x.isFinite = true) : IsForm x.significand x.stepExponent := by
  rw [isFinite, decide_eq_true_eq, infiniteMagnitude] at finite
  rw [significand, stepExponent, exponentField, fraction]
  dsimp only [fractions] at *
  split
  · exact ⟨by dsimp only [fractions]; omega, .inr (by omega), by omega⟩
  · exact ⟨by dsimp only [fractions]; omega, .inl (by dsimp only [fractions]; omega), by omega⟩

theorem magnitude_eq (x : Binary64) : x.magnitude = x.stepExponent * fractions + x.significand := by
  rw [significand, stepExponent, exponentField, fraction]
  dsimp only [fractions]
  split <;> omega

theorem absUnits_eq (x : Binary64) : x.absUnits = x.significand * 2 ^ x.stepExponent := rfl

theorem two_pow_eq_unitsPerOne {exponent : Nat} (same : exponent = 1074) : 2 ^ exponent = unitsPerOne := by
  unfold unitsPerOne
  rw [← same, Nat.pow_eq]

theorem unitsPerOne_pos : 0 < unitsPerOne := by
  obtain ⟨exponent, same⟩ : ∃ exponent, exponent = 1074 := ⟨_, rfl⟩
  exact two_pow_eq_unitsPerOne same ▸ Nat.two_pow_pos exponent

theorem natAbs_units (x : Binary64) : x.units.natAbs = x.absUnits := by
  rw [units]
  split <;> omega

/-! ## Rounding -/

theorem divideNearest_mul (quotient : Nat) (positive : 0 < den) : divideNearest (quotient * den) den = quotient := by
  simp [divideNearest, positive]

namespace IsForm

variable (form : IsForm significand step)

include form

theorem lt_infinite : step * fractions + significand < infiniteMagnitude := by
  obtain ⟨small, -, finite⟩ := form
  rw [infiniteMagnitude]
  dsimp only [fractions] at *
  omega

theorem absUnits_ofMagnitude : (ofMagnitude negative (step * fractions + significand)).absUnits = significand * 2 ^ step := by
  have inRange := form.lt_infinite.trans (show infiniteMagnitude < int64Bound by decide)
  have bits : (ofMagnitude negative (step * fractions + significand)).magnitude = _ := magnitude_ofMagnitude inRange
  obtain ⟨small, normal, -⟩ := form
  generalize ofMagnitude negative _ = x at bits
  have parts : x.significand = significand ∧ x.stepExponent = step := by
    rw [Binary64.significand, stepExponent, exponentField, fraction, bits]
    dsimp only [fractions] at *
    split <;> omega
  rw [absUnits_eq, parts.1, parts.2]

theorem log2_eq : (significand * 2 ^ step).log2 - 52 = step := by
  obtain ⟨small, normal, -⟩ := form
  have limit : fractions = 2 ^ 52 := rfl
  rcases normal with normal | rfl
  · have positive : significand * 2 ^ step ≠ 0 := Nat.mul_ne_zero (by omega) (Nat.two_pow_pos step).ne'
    have log : (significand * 2 ^ step).log2 = 52 + step := by
      rw [Nat.log2_eq_iff positive, Nat.pow_succ, Nat.pow_add, ← limit]
      refine ⟨Nat.mul_le_mul_right _ normal, ?_⟩
      rw [Nat.mul_right_comm, Nat.mul_comm fractions]
      exact Nat.mul_lt_mul_of_pos_right small (Nat.two_pow_pos step)
    omega
  · rw [Nat.pow_zero, Nat.mul_one]
    by_cases zero : significand = 0
    · rw [zero]
      rfl
    · have log : significand.log2 < 53 := (Nat.log2_lt zero).mpr (by omega)
      omega

/-- Rounding finds the form of a number that has one. -/
theorem nearestMagnitude_eq (positive : 0 < den) (exact : num * unitsPerOne = significand * 2 ^ step * den) :
    nearestMagnitude num den = step * fractions + significand := by
  have bound := form.lt_infinite
  have shift := form.log2_eq
  have regrouped : significand * 2 ^ step * den = significand * (den * 2 ^ step) := by
    rw [Nat.mul_assoc, Nat.mul_comm den]
  rw [nearestMagnitude, exact, Nat.mul_div_cancel _ positive]
  rw [shift, Nat.pow_eq, regrouped, divideNearest_mul _ (Nat.mul_pos positive (Nat.two_pow_pos step))]
  exact Nat.min_eq_right bound.le

/-- An integer whose number of units has a form is converted exactly. -/
theorem units_ofInt (exact : n.natAbs * unitsPerOne = significand * 2 ^ step) : (ofInt n).units = n * unitsPerOne := by
  have small := form.lt_infinite.trans (show infiniteMagnitude < int64Bound by decide)
  rw [units, ofInt, ofQuotient, form.nearestMagnitude_eq Nat.one_pos (by rw [exact, Nat.mul_one]), isNegative_ofMagnitude small,
    form.absUnits_ofMagnitude, ← exact, Nat.cast_mul]
  by_cases negative : n < 0
  · rw [if_pos (by simpa using negative), Int.ofNat_natAbs_of_nonpos negative.le, Int.neg_mul, Int.neg_neg]
  · rw [if_neg (by simpa using negative), Int.natAbs_of_nonneg (by omega)]

end IsForm

/-- What a number holds is converted to it. -/
theorem units_ofInt_of_units (finite : x.isFinite = true) (holds : x.units = n * unitsPerOne) :
    (ofInt n).units = n * unitsPerOne := by
  have exact : n.natAbs * unitsPerOne = x.absUnits := by
    rw [← natAbs_units, holds, Int.natAbs_mul, Int.natAbs_natCast]
  exact (isForm_of_isFinite finite).units_ofInt exact

/-- An integer of at most 53 bits fits a significand. -/
theorem units_ofInt_of_lt (small : n.natAbs < 2 ^ 53) : (ofInt n).units = n * unitsPerOne := by
  by_cases zero : n = 0
  · have form : IsForm 0 0 := ⟨by decide, .inr rfl, by decide⟩
    exact form.units_ofInt (by simp [zero])
  · have nonzero : n.natAbs ≠ 0 := by omega
    have log : n.natAbs.log2 < 53 := (Nat.log2_lt nonzero).mpr small
    obtain ⟨lower, upper⟩ := (Nat.log2_eq_iff nonzero).mp rfl
    have whole : 2 ^ n.natAbs.log2 * 2 ^ (52 - n.natAbs.log2) = fractions := by
      rw [← Nat.pow_add, Nat.add_sub_cancel' (by omega)]
    have form : IsForm (n.natAbs * 2 ^ (52 - n.natAbs.log2)) (n.natAbs.log2 + 1022) := by
      refine ⟨?_, .inl ?_, by omega⟩
      · rw [← whole, ← Nat.mul_assoc, ← Nat.pow_succ']
        exact Nat.mul_lt_mul_of_pos_right upper (Nat.two_pow_pos _)
      · rw [← whole]
        exact Nat.mul_le_mul_right _ lower
    refine form.units_ofInt ?_
    rw [Nat.mul_assoc, ← Nat.pow_add, two_pow_eq_unitsPerOne (by omega)]

end Binary64

end SqlSharding
