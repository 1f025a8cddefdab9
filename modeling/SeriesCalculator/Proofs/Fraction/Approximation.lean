import SeriesCalculator.Proofs.Binary.Whole
import SeriesCalculator.Proofs.Decimal.Text
import SeriesCalculator.Proofs.Fraction.Arithmetic
import SeriesCalculator.Series.Root

/-!
# The fraction of a double

A double is taken as a number of decimal parts of the unit, with as many places as are written after
its point. The parts and their number both stop at the ends of the words, each on its own
(`value_ofFloat`). Short of these ends the product of the double and the parts is rounded twice, to
a double and to an integer, and this is off by at most one part (`abs_nearest_mul_sub_le`). So the
fraction is near to the double just if the double is near to what the numerators reach.
-/

namespace SeriesCalculator.Fraction

/-- The number of parts of the unit for some digits after the point: a power of ten, or the largest
word. -/
def partCount (digits : ℕ) : ℤ := min (10 ^ digits) largest

/-- The unit of the last digit after the point, or of the ninth if there are more. -/
def lastUnit (digits : ℕ) : ℚ := 1 / 10 ^ min digits 9

theorem largest_eq : largest = 2 ^ 31 - 1 := rfl

theorem least_eq : least = -2 ^ 31 := rfl

theorem partCount_pos (digits : ℕ) : 0 < partCount digits := by
  rw [partCount, largest_eq]
  have : (0 : ℤ) < 10 ^ digits := by positivity
  omega

theorem partCount_le (digits : ℕ) : partCount digits ≤ largest := min_le_right _ _

theorem fits_partCount (digits : ℕ) : Fits (partCount digits) := by
  have pos := partCount_pos digits
  refine ⟨?_, partCount_le digits⟩
  rw [least_eq]
  omega

/-- A ninth place is always there if it is written. -/
theorem pow_le_partCount (digits : ℕ) : 10 ^ min digits 9 ≤ partCount digits := by
  apply le_min
  · exact pow_le_pow_right₀ (by norm_num) (min_le_left _ _)
  · calc (10 : ℤ) ^ min digits 9 ≤ 10 ^ 9 := pow_le_pow_right₀ (by norm_num) (min_le_right _ _)
      _ ≤ largest := by decide

variable {x : Float}

theorem ofFloat_eq (x : Float) : ofFloat x =
    reduced
      (Int32.ofInt (Binary.nearestWithin least largest
        (x * Binary.ofInt (partCount (Decimal.fractionDigits x)))))
      (Int32.ofInt (partCount (Decimal.fractionDigits x))) := by
  have den : (min (Decimal.powerOfTen (Decimal.fractionDigits x)) largest : ℤ) =
      partCount (Decimal.fractionDigits x) := by
    rw [partCount, Decimal.powerOfTen]
    rfl
  rw [ofFloat]
  simp only [den]

theorem isUndefined_ofFloat (x : Float) : (ofFloat x).isUndefined = false := by
  have pos := partCount_pos (Decimal.fractionDigits x)
  have den := toInt_ofInt_of_fits (fits_partCount (Decimal.fractionDigits x))
  rw [ofFloat_eq, isUndefined, beq_eq_false_iff_ne]
  apply den_reduced_ne_zero
  apply ne_zero_of_toInt
  omega

/-- The value of the fraction before it is reduced. -/
theorem value_ofFloat (x : Float) : value (ofFloat x) =
    Binary.nearestWithin least largest
      (x * Binary.ofInt (partCount (Decimal.fractionDigits x))) /
        partCount (Decimal.fractionDigits x) := by
  have pos := partCount_pos (Decimal.fractionDigits x)
  rw [ofFloat_eq, value_reduced_ofInt (Binary.nearestWithin_mem _ (by decide) (by decide))
    (fits_partCount _) (Int.ne_of_gt pos) (fun _ => pos)]

/-- The product of a double and the parts, rounded to a double and to an integer. -/
theorem abs_nearest_mul_sub_le (digits : ℕ) (finite : x.isFinite = true)
    (small : |Binary.value x * partCount digits| ≤ 2 ^ 40) :
    (x * Binary.ofInt (partCount digits)).isFinite = true ∧
      |(Binary.nearest (x * Binary.ofInt (partCount digits)) : ℚ) -
        Binary.value x * partCount digits| ≤ 1 := by
  obtain ⟨finiteParts, parts⟩ := Binary.value_ofInt (Int.le_of_lt (partCount_pos digits))
    (Int.lt_of_le_of_lt (partCount_le digits) (by decide))
  have inside : |Binary.value x * Binary.value (Binary.ofInt (partCount digits))| <
      2 ^ 1024 - 2 ^ 970 := by
    rw [parts]
    exact (small.trans_lt (pow_lt_pow_right₀ one_lt_two (by decide))).trans_le
      Binary.two_pow_le_sub
  obtain ⟨finiteProduct, product⟩ := Binary.value_mul finite finiteParts inside
  have rounded := Binary.abs_nearest_sub_le (x * Binary.ofInt (partCount digits))
  rw [parts] at product
  have half : max (|Binary.value x * partCount digits| / 2 ^ 53) (1 / 2 ^ 1075) ≤ (1 / 2 : ℚ) := by
    apply max_le
    · rw [div_le_iff₀ (by positivity)]
      exact small.trans (by norm_num)
    · exact one_div_le_one_div_of_le two_pos (le_self_pow₀ one_le_two (by decide))
  refine ⟨finiteProduct, ?_⟩
  calc |(Binary.nearest (x * Binary.ofInt (partCount digits)) : ℚ) -
        Binary.value x * partCount digits|
      ≤ |(Binary.nearest (x * Binary.ofInt (partCount digits)) : ℚ) -
          Binary.value (x * Binary.ofInt (partCount digits))| +
        |Binary.value (x * Binary.ofInt (partCount digits)) -
          Binary.value x * partCount digits| := abs_sub_le _ _ _
    _ ≤ 1 / 2 + 1 / 2 := add_le_add rounded (product.trans half)
    _ = 1 := by norm_num

/-- Numerators, rounded and moved into the words, are within an error of the double just if the
double is within the error of the words. -/
theorem abs_numerator_sub_le_iff (digits : ℕ) (finite : x.isFinite = true) {error : ℚ}
    (one_le : 1 ≤ error) (error_le : error ≤ 2 ^ 31) :
    |(Binary.nearestWithin least largest (x * Binary.ofInt (partCount digits)) : ℚ) -
        Binary.value x * partCount digits| ≤ error ↔
      least - error ≤ Binary.value x * partCount digits ∧
        Binary.value x * partCount digits ≤ largest + error := by
  have least_eq : (least : ℚ) = -2 ^ 31 := by norm_num [least_eq]
  have largest_eq : (largest : ℚ) = 2 ^ 31 - 1 := by norm_num [largest_eq]
  constructor
  · intro near
    obtain ⟨low, high⟩ := abs_le.mp near
    obtain ⟨least_le, le_largest⟩ : Fits (Binary.nearestWithin least largest
        (x * Binary.ofInt (partCount digits))) :=
      Binary.nearestWithin_mem _ (by decide) (by decide)
    rw [← Int.cast_le (R := ℚ)] at least_le le_largest
    constructor <;> linarith
  · rintro ⟨below, above⟩
    have small : |Binary.value x * partCount digits| ≤ 2 ^ 40 := by
      rw [abs_le]
      constructor <;> linarith
    obtain ⟨finiteProduct, near⟩ := abs_nearest_mul_sub_le digits finite small
    rw [Binary.nearestWithin_of_isFinite _ _ finiteProduct]
    exact Binary.abs_clamp_sub_le (by decide) (near.trans one_le) below above

/-- The fraction of an exponent that is not whole is what a power is formed with. -/
theorem pow_of_not_isWhole {exponent : Float} (finite : exponent.isFinite = true)
    (notWhole : Series.isWhole exponent = false) (base : Float) :
    Series.pow base exponent =
      Series.root (Series.integerPower base (ofFloat exponent).num.toInt)
        (Binary.ofInt (ofFloat exponent).den.toInt) Settings.default.logarithmTerms := by
  rw [Series.pow, finite, notWhole]
  rfl

theorem one_le_lastUnit_mul (digits : ℕ) : 1 ≤ lastUnit digits * partCount digits := by
  have power : (0 : ℚ) < 10 ^ min digits 9 := by positivity
  rw [lastUnit, one_div_mul_eq_div, one_le_div power]
  exact_mod_cast pow_le_partCount digits

theorem lastUnit_mul_le (digits : ℕ) : lastUnit digits * partCount digits ≤ 2 ^ 31 := by
  have parts : (partCount digits : ℚ) ≤ 2 ^ 31 := by
    have := partCount_le digits
    rw [largest_eq] at this
    exact_mod_cast (by omega : partCount digits ≤ 2 ^ 31)
  have unit_le : lastUnit digits ≤ 1 :=
    div_le_one_of_le₀ (one_le_pow₀ (by norm_num)) (by positivity)
  have pos : (0 : ℚ) < partCount digits := mod_cast partCount_pos digits
  calc lastUnit digits * partCount digits ≤ 1 * 2 ^ 31 := by gcongr
    _ = 2 ^ 31 := one_mul _

/-- A fraction is as near to a double as the unit of the last digit that is written, or of the ninth
if there are more, just if the double is as near to what the words reach. -/
theorem ofFloat_near_iff {digits : ℕ} (finite : x.isFinite = true)
    (written : (Decimal.afterPoint (Decimal.text x)).length = digits) :
    (ofFloat x).isUndefined = false ∧
      (|value (ofFloat x) - Binary.value x| ≤ lastUnit digits ↔
        least / partCount digits - lastUnit digits ≤ Binary.value x ∧
          Binary.value x ≤ largest / partCount digits + lastUnit digits) ∧
      (Series.isWhole x = false → ∀ base, Series.pow base x =
        Series.root (Series.integerPower base (ofFloat x).num.toInt)
          (Binary.ofInt (ofFloat x).den.toInt) Settings.default.logarithmTerms) := by
  refine ⟨isUndefined_ofFloat x, ?_, pow_of_not_isWhole finite⟩
  rw [Decimal.length_afterPoint_text] at written
  have pos : (0 : ℚ) < partCount digits := mod_cast partCount_pos digits
  have scaled := abs_numerator_sub_le_iff digits finite (one_le_lastUnit_mul digits)
    (lastUnit_mul_le digits)
  rw [value_ofFloat, written, div_sub' pos.ne', abs_div, abs_of_pos pos, div_le_iff₀ pos,
    mul_comm (partCount digits : ℚ), scaled, div_sub' pos.ne', div_add' _ _ _ pos.ne',
    div_le_iff₀ pos, le_div_iff₀ pos, mul_comm (partCount digits : ℚ)]

/-- Seventeen places are written of `0.1 + 0.2`. -/
theorem ofFloat_near_iff_seventeen :
    (Float.ofBits 0x3FD3333333333334).isFinite = true ∧
      (Decimal.afterPoint (Decimal.text (Float.ofBits 0x3FD3333333333334))).length = 17 ∧
      |value (ofFloat (Float.ofBits 0x3FD3333333333334)) -
        Binary.value (Float.ofBits 0x3FD3333333333334)| ≤ lastUnit 17 ∧
      Series.isWhole (Float.ofBits 0x3FD3333333333334) = false ∧
      Series.pow 2.0 (Float.ofBits 0x3FD3333333333334) =
        Series.root
          (Series.integerPower 2.0 (ofFloat (Float.ofBits 0x3FD3333333333334)).num.toInt)
          (Binary.ofInt (ofFloat (Float.ofBits 0x3FD3333333333334)).den.toInt)
          Settings.default.logarithmTerms := by
  have finite : (Float.ofBits 0x3FD3333333333334).isFinite = true := by decide +kernel
  have written :
      (Decimal.afterPoint (Decimal.text (Float.ofBits 0x3FD3333333333334))).length = 17 := by
    rw [Decimal.length_afterPoint_text]
    decide +kernel
  have decoded : Binary.decode (Float.ofBits 0x3FD3333333333334) =
      { negative := false, mantissa := 5404319552844596, exponent := -54 } := by decide +kernel
  have exact : Binary.value (Float.ofBits 0x3FD3333333333334) = 5404319552844596 / 2 ^ 54 := by
    rw [Binary.value, decoded]
    norm_num [Binary.Decoded.value, Binary.Decoded.signed]
  have notWhole : Series.isWhole (Float.ofBits 0x3FD3333333333334) = false := by decide +kernel
  obtain ⟨-, near, power⟩ := ofFloat_near_iff finite written
  refine ⟨finite, written, near.mpr ?_, notWhole, power notWhole 2.0⟩
  rw [exact]
  norm_num [partCount, lastUnit, least_eq, largest_eq]

/-- The numerator of `300000000.5` stops at the largest word. -/
theorem ofFloat_not_near : ¬ ∀ x : Float, x.isFinite = true → |Binary.value x| < 2 ^ 31 →
    (ofFloat x).isUndefined = false ∧ |value (ofFloat x) - Binary.value x| ≤
      lastUnit (Decimal.afterPoint (Decimal.text x)).length := by
  intro always
  have finite : (Float.ofBits 0x41B1E1A300800000).isFinite = true := by decide +kernel
  have digits : Decimal.fractionDigits (Float.ofBits 0x41B1E1A300800000) = 1 := by decide +kernel
  have decoded : Binary.decode (Float.ofBits 0x41B1E1A300800000) =
      { negative := false, mantissa := 5033164808388608, exponent := -24 } := by decide +kernel
  have exact : Binary.value (Float.ofBits 0x41B1E1A300800000) = 300000000.5 := by
    rw [Binary.value, decoded]
    norm_num [Binary.Decoded.value, Binary.Decoded.signed]
  have numerator : Binary.nearestWithin least largest
      (Float.ofBits 0x41B1E1A300800000 * Binary.ofInt (partCount 1)) = 2147483647 := by
    decide +kernel
  have fraction : value (ofFloat (Float.ofBits 0x41B1E1A300800000)) = 214748364.7 := by
    rw [value_ofFloat, digits, numerator]
    norm_num [partCount, largest_eq]
  obtain ⟨-, near⟩ := always _ finite (by rw [exact]; norm_num)
  rw [Decimal.length_afterPoint_text, digits, exact, fraction] at near
  norm_num [lastUnit] at near

end SeriesCalculator.Fraction
