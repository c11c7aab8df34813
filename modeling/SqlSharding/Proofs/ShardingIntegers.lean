import SqlSharding.Proofs.WholeNumbers
import SqlSharding.Value

/-!
# The integers that select shards

The integer of a value is the number that the value denotes, with one exception: the double 2^63 denotes no 64-bit integer, but the
greatest one rounds to it, so truncating it with saturation and converting it back gives the same double. It selects the shard of
2^63 - 1 (`Value.toShardingInteger?_eq_some_iff`).
-/

namespace SqlSharding

namespace Binary64

variable {x y : Binary64} {n : Int}

/-- The exact value of a finite number. -/
def Denotes (x : Binary64) (n : Int) : Prop := x.isFinite = true ∧ x.units = n * unitsPerOne

theorem isNaN_eq_false (finite : x.isFinite = true) : x.isNaN = false := by
  rw [isFinite, decide_eq_true_eq] at finite
  rw [isNaN, decide_eq_false_iff_not]
  omega

theorem isNaN_ofInt (n : Int) : (ofInt n).isNaN = false := by
  have bound : nearestMagnitude n.natAbs 1 ≤ infiniteMagnitude := Nat.min_le_left _ _
  have limit : infiniteMagnitude < int64Bound := by decide
  rw [isNaN, ofInt, ofQuotient, magnitude_ofMagnitude (bound.trans_lt limit), decide_eq_false_iff_not]
  omega

theorem compare?_eq_iff (number : x.isNaN = false) (number' : y.isNaN = false) : x.compare? y = some .eq ↔ x.units = y.units := by
  rw [compare?, number, number', Bool.or_self, if_neg Bool.false_ne_true, Option.some_inj, Int.compare_eq_eq]

theorem tdiv_units (holds : x.units = n * unitsPerOne) : x.units.tdiv unitsPerOne = n := by
  rw [holds, Int.mul_tdiv_cancel _ (Int.ofNat_ne_zero.mpr unitsPerOne_pos.ne')]

/-- A number is whole or below 2^53, and in both cases its whole part is converted exactly. -/
theorem units_ofInt_tdiv (finite : x.isFinite = true) :
    x.units = x.units.tdiv unitsPerOne * unitsPerOne ∨
      (ofInt (x.units.tdiv unitsPerOne)).units = x.units.tdiv unitsPerOne * unitsPerOne := by
  obtain ⟨exponent, isOne⟩ : ∃ exponent, exponent = 1074 := ⟨_, rfl⟩
  by_cases whole : exponent ≤ x.stepExponent
  · left
    have divides : unitsPerOne ∣ x.absUnits := by
      rw [← two_pow_eq_unitsPerOne isOne, absUnits_eq]
      exact Nat.dvd_mul_left_of_dvd (Nat.pow_dvd_pow 2 whole) _
    rw [← natAbs_units, ← Int.ofNat_dvd_left] at divides
    exact (Int.tdiv_mul_cancel divides).symm
  · right
    refine units_ofInt_of_lt ?_
    rw [Int.natAbs_tdiv, natAbs_units, Int.natAbs_natCast]
    refine Nat.div_lt_of_lt_mul ?_
    have step : 2 ^ x.stepExponent ≤ unitsPerOne := by
      rw [← two_pow_eq_unitsPerOne isOne]
      exact Nat.pow_le_pow_right Nat.two_pos (by omega)
    calc x.absUnits = x.significand * 2 ^ x.stepExponent := absUnits_eq x
      _ ≤ x.significand * unitsPerOne := Nat.mul_le_mul_left _ step
      _ < 2 ^ 53 * unitsPerOne := Nat.mul_lt_mul_of_pos_right (isForm_of_isFinite finite).small unitsPerOne_pos
      _ = unitsPerOne * 2 ^ 53 := Nat.mul_comm _ _

/-- The greatest 64-bit integer is rounded up. -/
theorem units_ofInt_greatest : (ofInt (int64Bound - 1)).units = int64Bound * unitsPerOne := by decide +kernel

theorem units_ofInt_least : (ofInt (-int64Bound)).units = -int64Bound * unitsPerOne := by decide +kernel

end Binary64

namespace Value

open Binary64

variable {x : Binary64} {i : Int64} {n : Int}

/-- The number that a value denotes, if it denotes one: an integer, the exact value of a double, or the number that a text has between
blanks. -/
def Denotes : Value → Int → Prop
  | integer i, n => i.toInt = n
  | float x, n => x.Denotes n
  | text s, n => Text.IsDecimal (Text.trim s.toList) n
  | null, _ => False
  | blob _, _ => False

theorem truncateToInt64_eq (number : x.isNaN = false) : truncateToInt64 x = clampInt64 (x.units.tdiv unitsPerOne) := by
  rw [truncateToInt64, number, if_neg Bool.false_ne_true, units]
  dsimp only
  split
  · rw [Int.neg_tdiv, Int.ofNat_tdiv]
  · rw [Int.ofNat_tdiv]

/-- A double gives its truncation if this has the same exact value after it is converted back. -/
theorem toShardingInteger?_float_iff : (float x).toShardingInteger? = some i ↔
    x.isFinite = true ∧ clampInt64 (x.units.tdiv unitsPerOne) = i ∧ (ofInt i.toInt).units = x.units := by
  rw [toShardingInteger?]
  by_cases finite : x.isFinite = true
  · have number := isNaN_eq_false finite
    have same := compare?_eq_iff (isNaN_ofInt (clampInt64 (x.units.tdiv unitsPerOne)).toInt) number
    rw [truncateToInt64_eq number, finite, Bool.true_and]
    constructor
    · intro found
      split at found
      · next fits =>
        obtain rfl := Option.some.inj found
        exact ⟨rfl, rfl, same.mp (of_decide_eq_true fits)⟩
      · cases found
    · rintro ⟨-, rfl, fits⟩
      rw [if_pos (decide_eq_true (same.mpr fits))]
  · rw [Bool.eq_false_of_not_eq_true finite, Bool.false_and, if_neg Bool.false_ne_true]
    exact ⟨nofun, fun holds => absurd holds.1 Bool.false_ne_true⟩

/-- A double gives the integer that it denotes, and 2^63 gives the greatest integer. -/
theorem toShardingInteger?_float : (float x).toShardingInteger? = some i ↔
    x.Denotes i.toInt ∨ i = Int64.maxValue ∧ x.Denotes int64Bound := by
  rw [toShardingInteger?_float_iff]
  constructor
  · rintro ⟨finite, rfl, fits⟩
    have limit : (int64Bound : Int) = 9223372036854775808 := rfl
    have clamped := toInt_clampInt64 (x.units.tdiv unitsPerOne)
    obtain ⟨below, isLeast⟩ | inRange | ⟨-, isGreatest⟩ :
        (x.units.tdiv unitsPerOne < -int64Bound ∧ (clampInt64 (x.units.tdiv unitsPerOne)).toInt = -int64Bound) ∨
          (clampInt64 (x.units.tdiv unitsPerOne)).toInt = x.units.tdiv unitsPerOne ∨
          (int64Bound ≤ x.units.tdiv unitsPerOne ∧ (clampInt64 (x.units.tdiv unitsPerOne)).toInt = int64Bound - 1) := by
      omega
    · rw [isLeast, units_ofInt_least] at fits
      have whole := tdiv_units fits.symm
      omega
    · left
      rw [inRange] at fits ⊢
      exact ⟨finite, (units_ofInt_tdiv finite).elim id fun exact => fits.symm.trans exact⟩
    · right
      refine ⟨Int64.toInt_inj.mp (isGreatest.trans Int64.toInt_maxValue.symm), finite, ?_⟩
      rw [isGreatest, units_ofInt_greatest] at fits
      exact fits.symm
  · rintro (⟨finite, holds⟩ | ⟨rfl, finite, holds⟩)
    · refine ⟨finite, ?_, (units_ofInt_of_units finite holds).trans holds.symm⟩
      rw [tdiv_units holds, clampInt64_toInt]
    · refine ⟨finite, ?_, units_ofInt_greatest.trans holds.symm⟩
      rw [tdiv_units holds]
      rfl

/-- The integer of a value is the number that it denotes, except that the double 2^63 has the greatest integer. -/
theorem toShardingInteger?_eq_some_iff (v : Value) (i : Int64) : v.toShardingInteger? = some i ↔
    v.Denotes i.toInt ∨ i = Int64.maxValue ∧ ∃ x, v = float x ∧ x.Denotes int64Bound := by
  cases v with
  | float x =>
    rw [toShardingInteger?_float, Denotes]
    refine or_congr_right (and_congr_right fun _ => ⟨fun holds => ⟨x, rfl, holds⟩, ?_⟩)
    rintro ⟨_, ⟨⟩, holds⟩
    exact holds
  | integer j =>
    rw [toShardingInteger?, Denotes, Option.some_inj, Int64.toInt_inj]
    exact ⟨.inl, fun either => either.resolve_right (by simp)⟩
  | text s =>
    rw [toShardingInteger?, Denotes, Text.readInt64?_eq_some_iff]
    exact ⟨.inl, fun either => either.resolve_right (by simp)⟩
  | null | blob => simp [toShardingInteger?, Denotes]

/-- Past the 64-bit integers there is one number that is not refused. -/
example : (float (ofInt int64Bound)).toShardingInteger? = some Int64.maxValue := by decide +kernel

end Value

end SqlSharding
