import Mathlib
import SqlSharding.Proofs.ShardingIntegers

/-!
# The order of values

Two values are compared by their types, and within a type by what they hold. An integer is rounded to a double before it is
compared with one, and rounding keeps the order of integers (`Binary64.units_ofInt_mono`) without keeping them apart. So the
comparison is total and reverses with its operands (`compare?_swap`), and it is transitive everywhere except around a double to
which two different integers round (`atMost_trans_iff`, `same_trans_iff`). Among integers that some double holds there is no such
place (`atMost_trans_of_exact`).
-/

namespace SqlSharding

namespace Binary64

variable {x y : Binary64} {m n den : Nat} {i j : Int}

/-! ## Rounding keeps the order -/

theorem div_le_divideNearest (num den : Nat) : num / den ≤ divideNearest num den := by
  dsimp only [divideNearest]
  split_ifs <;> omega

theorem divideNearest_le (num den : Nat) : divideNearest num den ≤ num / den + 1 := by
  dsimp only [divideNearest]
  split_ifs <;> omega

theorem divideNearest_mono (le : m ≤ n) : divideNearest m den ≤ divideNearest n den := by
  rcases (Nat.div_le_div_right (c := den) le).lt_or_eq with less | same
  · calc divideNearest m den ≤ m / den + 1 := divideNearest_le m den
      _ ≤ n / den := less
      _ ≤ divideNearest n den := div_le_divideNearest n den
  · have remainders : m % den ≤ n % den := by
      have first := Nat.div_add_mod m den
      have second := Nat.div_add_mod n den
      rw [same] at first
      omega
    dsimp only [divideNearest]
    rw [same]
    split_ifs <;> omega

theorem log2_mono (le : m ≤ n) : m.log2 ≤ n.log2 := by
  rw [Nat.log2_eq_log_two, Nat.log2_eq_log_two]
  exact Nat.log_mono_right le

/-- The significand that is cut out of a whole number has 53 digits at most. -/
theorem shifted_lt (whole : Nat) : whole / 2 ^ (whole.log2 - 52) < 2 * fractions := by
  have limit : 2 * fractions = 2 ^ 53 := rfl
  rw [limit, Nat.div_lt_iff_lt_mul (Nat.two_pow_pos _), ← Nat.pow_add]
  exact Nat.lt_log2_self.trans_le (Nat.pow_le_pow_right Nat.two_pos (by omega))

theorem le_shifted {whole : Nat} (cut : 52 < whole.log2) : fractions ≤ whole / 2 ^ (whole.log2 - 52) := by
  have limit : fractions = 2 ^ 52 := rfl
  have nonzero : whole ≠ 0 := by
    rintro rfl
    exact absurd cut (by decide)
  rw [limit, Nat.le_div_iff_mul_le (Nat.two_pow_pos _), ← Nat.pow_add, Nat.add_sub_cancel' cut.le]
  exact Nat.log2_self_le nonzero

/-- Within a binade the significands are ordered. A significand of a lower binade rounds up to the next power of two at most, and that
is where the higher ones begin. -/
theorem nearestMagnitude_mono (le : m ≤ n) : nearestMagnitude m den ≤ nearestMagnitude n den := by
  have scaled : m * unitsPerOne ≤ n * unitsPerOne := Nat.mul_le_mul_right _ le
  dsimp only [nearestMagnitude]
  generalize m * unitsPerOne = m at scaled
  generalize n * unitsPerOne = n at scaled
  have shifts : (m / den).log2 ≤ (n / den).log2 := log2_mono (Nat.div_le_div_right scaled)
  refine min_le_min_left _ ?_
  rcases (Nat.sub_le_sub_right shifts 52).lt_or_eq with less | same
  · have filled : divideNearest m (den * Nat.pow 2 ((m / den).log2 - 52)) ≤ 2 * fractions := by
      refine (divideNearest_le _ _).trans ?_
      rw [← Nat.div_div_eq_div_mul]
      exact shifted_lt (m / den)
    have leading : fractions ≤ divideNearest n (den * Nat.pow 2 ((n / den).log2 - 52)) := by
      refine le_trans ?_ (div_le_divideNearest _ _)
      rw [← Nat.div_div_eq_div_mul]
      exact le_shifted (by omega)
    have next := Nat.mul_le_mul_right fractions less
    rw [Nat.succ_mul] at next
    omega
  · rw [same]
    exact Nat.add_le_add_left (divideNearest_mono scaled) _

theorem nearestMagnitude_le (num den : Nat) : nearestMagnitude num den ≤ infiniteMagnitude :=
  Nat.min_le_left _ _

theorem significand_lt (x : Binary64) : x.significand < 2 * fractions := by
  rw [significand, fraction]
  dsimp only [fractions]
  split <;> omega

theorem le_significand (normal : 0 < x.stepExponent) : fractions ≤ x.significand := by
  rw [stepExponent] at normal
  rw [significand, if_neg (by omega)]
  exact Nat.le_add_right _ _

theorem absUnits_mono (le : x.magnitude ≤ y.magnitude) : x.absUnits ≤ y.absUnits := by
  have steps : x.stepExponent ≤ y.stepExponent := Nat.sub_le_sub_right (Nat.div_le_div_right le) 1
  rw [absUnits_eq, absUnits_eq]
  rcases steps.lt_or_eq with less | same
  · calc x.significand * 2 ^ x.stepExponent ≤ 2 * fractions * 2 ^ x.stepExponent := Nat.mul_le_mul_right _ x.significand_lt.le
      _ = fractions * 2 ^ (x.stepExponent + 1) := by rw [Nat.pow_succ]; ac_rfl
      _ ≤ y.significand * 2 ^ y.stepExponent :=
        Nat.mul_le_mul (le_significand (Nat.zero_lt_of_lt less)) (Nat.pow_le_pow_right Nat.two_pos less)
  · have significands : x.significand ≤ y.significand := by
      rw [magnitude_eq, magnitude_eq, same] at le
      omega
    rw [same]
    exact Nat.mul_le_mul_right _ significands

theorem magnitude_ofInt (i : Int) : (ofInt i).magnitude = nearestMagnitude i.natAbs 1 :=
  magnitude_ofMagnitude ((nearestMagnitude_le _ _).trans_lt (by decide))

theorem isNegative_ofInt (i : Int) : (ofInt i).isNegative = decide (i < 0) :=
  isNegative_ofMagnitude ((nearestMagnitude_le _ _).trans_lt (by decide))

theorem units_ofInt_mono (le : i ≤ j) : (ofInt i).units ≤ (ofInt j).units := by
  have grows {i j : Int} (le : i.natAbs ≤ j.natAbs) : (ofInt i).absUnits ≤ (ofInt j).absUnits :=
    absUnits_mono (by simpa only [magnitude_ofInt] using nearestMagnitude_mono le)
  rw [units, units, isNegative_ofInt, isNegative_ofInt]
  simp only [decide_eq_true_eq]
  split_ifs with first second second
  · exact Int.neg_le_neg (Int.ofNat_le.mpr (grows (by omega)))
  · omega
  · omega
  · exact Int.ofNat_le.mpr (grows (by omega))

theorem compare?_swap (x y : Binary64) : (x.compare? y).map Ordering.swap = y.compare? x := by
  rw [compare?, compare?, Bool.or_comm]
  split
  · rfl
  · exact congrArg some (Std.OrientedOrd.eq_swap).symm

theorem compare?_eq_some (first : x.isNaN = false) (second : y.isNaN = false) : x.compare? y = some (compare x.units y.units) := by
  rw [compare?, first, second]
  rfl

end Binary64

/-- What is ordered linearly is compared by its order. -/
theorem transCmp_compareOfLessAndEq {α : Type} [LT α] [LE α] [DecidableLT α] [DecidableLE α] [DecidableEq α] [Std.IsLinearOrder α]
    [Std.LawfulOrderLT α] : Std.TransCmp fun a b : α => compareOfLessAndEq a b :=
  Std.TransOrd.compareOfLessAndEq_of_antisymm_of_trans_of_total_of_not_le Std.le_antisymm Std.le_trans (fun _ _ => Std.le_total)
    Std.not_le

namespace Value

variable {u v w : Value} {i j k : Int64} {x : Binary64}

/-- Whether a value is a number that compares with no number. -/
def isNaN : Value → Bool
  | float x => x.isNaN
  | _ => false

/-- An integer, or a double that compares with itself. -/
structure IsNumber (v : Value) : Prop where
  sortClass : v.sortClass = 1
  isNaN : v.isNaN = false

/-- What a number counts for in a comparison with a double. -/
def units : Value → Int
  | integer i => (Binary64.ofInt i.toInt).units
  | float x => x.units
  | _ => 0

/-- Whether a value compares as less than another one or as equal to it. -/
def atMost (v w : Value) : Bool := (v.compare? w).any Ordering.isLE

/-- Two integers around a double to which both of them round, although the first is the greater one. -/
inductive Collapsed : Value → Value → Value → Prop
  | intro {i k : Int64} {x : Binary64} (less : k.toInt < i.toInt) (first : (Binary64.ofInt i.toInt).units = x.units)
      (last : (Binary64.ofInt k.toInt).units = x.units) : Collapsed (integer i) (float x) (integer k)

/-! ## Two values -/

/-- The comparison of two values in exchanged places is the reverse one. -/
theorem compare?_swap (v w : Value) : (v.compare? w).map Ordering.swap = w.compare? v := by
  cases v with
  | null => cases w <;> rfl
  | integer i =>
    cases w with
    | integer j => exact congrArg some (Std.OrientedOrd.eq_swap).symm
    | null | float | text | blob => rfl
  | float x =>
    cases w with
    | integer j => exact congrArg some Ordering.swap_swap
    | float y => exact x.compare?_swap y
    | null | text | blob => rfl
  | text s =>
    cases w with
    | text t => exact congrArg some (transCmp_compareOfLessAndEq.eq_swap).symm
    | null | integer | float | blob => rfl
  | blob b =>
    cases w with
    | blob c => exact congrArg some (transCmp_compareOfLessAndEq.eq_swap).symm
    | null | integer | float | text => rfl

theorem compare?_of_sortClass_ne (different : v.sortClass ≠ w.sortClass) : v.compare? w = some (compare v.sortClass w.sortClass) := by
  cases v <;> cases w <;> first | exact absurd rfl different | rfl

/-- Two numbers of which one is a double compare as doubles. -/
theorem compare?_eq_units (first : IsNumber v) (second : IsNumber w) (mixed : v.asInteger? = none ∨ w.asInteger? = none) :
    v.compare? w = some (compare v.units w.units) := by
  obtain ⟨firstClass, left⟩ := first
  obtain ⟨secondClass, right⟩ := second
  cases v with
  | null | text | blob => cases firstClass
  | integer i =>
    cases w with
    | null | text | blob => cases secondClass
    | integer j => simp [asInteger?] at mixed
    | float y =>
      rw [compare?, compareIntegerFloat, Binary64.compare?_eq_some (Binary64.isNaN_ofInt _) right]
      rfl
  | float x =>
    cases w with
    | null | text | blob => cases secondClass
    | integer j =>
      rw [compare?, compareIntegerFloat, Binary64.compare?_eq_some (Binary64.isNaN_ofInt _) left]
      exact congrArg some (Std.OrientedOrd.eq_swap).symm
    | float y => exact Binary64.compare?_eq_some left right

theorem atMost_iff_of_compare? {order : Ordering} (compared : v.compare? w = some order) : v.atMost w = true ↔ order.isLE = true := by
  rw [atMost, compared]
  rfl

theorem atMost_iff_units (first : IsNumber v) (second : IsNumber w) (mixed : v.asInteger? = none ∨ w.asInteger? = none) :
    v.atMost w = true ↔ v.units ≤ w.units :=
  (atMost_iff_of_compare? (compare?_eq_units first second mixed)).trans Std.isLE_compare

theorem atMost_integer : (integer i).atMost (integer j) = true ↔ i.toInt ≤ j.toInt :=
  Std.isLE_compare

theorem sortClass_le_of_atMost (below : v.atMost w = true) : v.sortClass ≤ w.sortClass := by
  by_cases same : v.sortClass = w.sortClass
  · exact same.le
  · exact Std.isLE_compare.mp ((atMost_iff_of_compare? (compare?_of_sortClass_ne same)).mp below)

theorem atMost_of_sortClass_lt (lower : v.sortClass < w.sortClass) : v.atMost w = true :=
  (atMost_iff_of_compare? (compare?_of_sortClass_ne lower.ne)).mpr (Std.isLE_compare.mpr lower.le)

theorem exists_compare? (left : v.isNaN = false) (right : w.isNaN = false) : ∃ order, v.compare? w = some order := by
  cases v with
  | float x =>
    cases w with
    | float y => exact ⟨_, Binary64.compare?_eq_some left right⟩
    | null | integer | text | blob => exact ⟨_, rfl⟩
  | null | integer | text | blob => cases w <;> exact ⟨_, rfl⟩

/-- Of two values that are no NaN, one is at most the other. -/
theorem atMost_total (left : v.isNaN = false) (right : w.isNaN = false) : v.atMost w = true ∨ w.atMost v = true := by
  obtain ⟨order, compared⟩ := exists_compare? left right
  have reversed : w.compare? v = some order.swap := by rw [← compare?_swap, compared, Option.map_some]
  rw [atMost_iff_of_compare? compared, atMost_iff_of_compare? reversed]
  cases order <;> decide

/-- Values that compare as equal are each at most the other. -/
theorem same_iff : v.same w = true ↔ v.atMost w = true ∧ w.atMost v = true := by
  have reversed := compare?_swap v w
  rw [same, atMost, atMost, ← reversed, decide_eq_true_eq]
  cases v.compare? w with
  | none => decide
  | some order => cases order <;> decide

/-! ## Three values -/

theorem exists_eq_integer (isInteger : v.asInteger? ≠ none) : ∃ i, v = integer i := by
  cases v with
  | integer i => exact ⟨i, rfl⟩
  | null | float | text | blob => exact absurd rfl isInteger

/-- Numbers are ordered as what they count for against doubles; the order of integers among themselves is possibly finer. -/
theorem units_le_of_atMost (first : IsNumber v) (second : IsNumber w) (below : v.atMost w = true) : v.units ≤ w.units := by
  by_cases mixed : v.asInteger? = none ∨ w.asInteger? = none
  · exact (atMost_iff_units first second mixed).mp below
  · obtain ⟨left, right⟩ := not_or.mp mixed
    obtain ⟨i, rfl⟩ := exists_eq_integer left
    obtain ⟨j, rfl⟩ := exists_eq_integer right
    exact Binary64.units_ofInt_mono (atMost_integer.mp below)

theorem atMost_trans_of_isNumber (first : IsNumber u) (second : IsNumber v) (third : IsNumber w) (below : u.atMost v = true)
    (above : v.atMost w = true) : u.atMost w = true ∨ Collapsed u v w := by
  have lower := units_le_of_atMost first second below
  have upper := units_le_of_atMost second third above
  by_cases mixed : u.asInteger? = none ∨ w.asInteger? = none
  · exact .inl ((atMost_iff_units first third mixed).mpr (lower.trans upper))
  obtain ⟨left, right⟩ := not_or.mp mixed
  obtain ⟨i, rfl⟩ := exists_eq_integer left
  obtain ⟨k, rfl⟩ := exists_eq_integer right
  cases v with
  | null | text | blob => cases second.sortClass
  | integer j => exact .inl (atMost_integer.mpr ((atMost_integer.mp below).trans (atMost_integer.mp above)))
  | float x =>
    rcases le_or_gt i.toInt k.toInt with le | less
    · exact .inl (atMost_integer.mpr le)
    · -- Rounding keeps the order of the two integers, so both are where the double is.
      have back : (integer k).units ≤ (integer i).units := Binary64.units_ofInt_mono less.le
      exact .inr ⟨less, lower.antisymm (upper.trans back), (back.trans lower).antisymm upper⟩

theorem atMost_trans_or_collapsed (first : u.isNaN = false) (second : v.isNaN = false) (third : w.isNaN = false)
    (below : u.atMost v = true) (above : v.atMost w = true) : u.atMost w = true ∨ Collapsed u v w := by
  have low := sortClass_le_of_atMost below
  have high := sortClass_le_of_atMost above
  rcases (low.trans high).lt_or_eq with lower | level
  · exact .inl (atMost_of_sortClass_lt lower)
  have between : v.sortClass = u.sortClass := by omega
  cases u with
  | integer | float => exact atMost_trans_of_isNumber ⟨rfl, first⟩ ⟨between, second⟩ ⟨level.symm, third⟩ below above
  | null =>
    cases w with
    | null => exact .inl rfl
    | integer | float | text | blob => cases level
  | text s =>
    cases v with
    | null | integer | float | blob => cases between
    | text t =>
      cases w with
      | null | integer | float | blob => cases level
      | text r => exact .inl (transCmp_compareOfLessAndEq.isLE_trans below above)
  | blob b =>
    cases v with
    | null | integer | float | text => cases between
    | blob c =>
      cases w with
      | null | integer | float | text => cases level
      | blob d => exact .inl (transCmp_compareOfLessAndEq.isLE_trans below above)

theorem not_atMost_of_collapsed (collapsed : Collapsed u v w) : u.atMost w = false := by
  obtain ⟨less, -, -⟩ := collapsed
  exact Bool.eq_false_iff.mpr fun le => less.not_ge (atMost_integer.mp le)

/-- Without NaNs the order is transitive but for two integers around a double to which both of them round. -/
theorem atMost_trans_iff (first : u.isNaN = false) (second : v.isNaN = false) (third : w.isNaN = false) (below : u.atMost v = true)
    (above : v.atMost w = true) : u.atMost w = true ↔ ¬ Collapsed u v w := by
  constructor
  · intro le collapsed
    rw [not_atMost_of_collapsed collapsed] at le
    cases le
  · intro apart
    exact (atMost_trans_or_collapsed first second third below above).resolve_right apart

/-- Without NaNs two values that equal a third one are equal, but for two integers that round to it. -/
theorem same_trans_iff (first : u.isNaN = false) (second : v.isNaN = false) (third : w.isNaN = false) (left : u.same v = true)
    (right : v.same w = true) : u.same w = true ↔ ¬ (Collapsed u v w ∨ Collapsed w v u) := by
  obtain ⟨below, back⟩ := same_iff.mp left
  obtain ⟨above, down⟩ := same_iff.mp right
  rw [same_iff, atMost_trans_iff first second third below above, atMost_trans_iff third second first down back, not_or]

/-- The two integers at 2^53 that round to it: both equal the double, the greater one is not at most the smaller one. -/
example :
    (integer 9007199254740993).same (float ⟨0x4340000000000000⟩) = true ∧
      (float ⟨0x4340000000000000⟩).same (integer 9007199254740992) = true ∧
      (integer 9007199254740993).atMost (integer 9007199254740992) = false := by
  decide +kernel

/-! ## Integers that doubles hold -/

/-- If the value is an integer, it is what it rounds to. -/
def Exact (v : Value) : Prop :=
  ∀ i, v = integer i → (Binary64.ofInt i.toInt).units = i.toInt * Binary64.unitsPerOne

theorem exact_of_lt (small : i.toInt.natAbs < 2 ^ 53) : Exact (integer i) := by
  rintro _ ⟨⟩
  exact Binary64.units_ofInt_of_lt small

theorem not_collapsed_of_exact (left : Exact u) (right : Exact w) : ¬ Collapsed u v w := by
  rintro ⟨less, first, last⟩
  have same := first.trans last.symm
  rw [left _ rfl, right _ rfl] at same
  exact less.ne (Int.eq_of_mul_eq_mul_right (by exact_mod_cast Binary64.unitsPerOne_pos.ne') same).symm

/-- Where every integer is held by a double, the order is transitive. -/
theorem atMost_trans_of_exact (left : Exact u) (right : Exact w) (first : u.isNaN = false) (second : v.isNaN = false)
    (third : w.isNaN = false) (below : u.atMost v = true) (above : v.atMost w = true) : u.atMost w = true :=
  (atMost_trans_iff first second third below above).mpr (not_collapsed_of_exact left right)

end Value

end SqlSharding
