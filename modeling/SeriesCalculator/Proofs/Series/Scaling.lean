import SeriesCalculator.Proofs.Binary.Quotient
import SeriesCalculator.Proofs.Decimal.Distance
import SeriesCalculator.Proofs.Series.Power
import SeriesCalculator.Series.Logarithm

/-!
# The logarithm from two upward

An argument from two upward is divided by ten to the number of its digits before the point. These are
the digits of the shortest decimal number, and ten to their number is a product that is rounded at
every factor. Both are right up to a small part, which keeps the quotient between zero and two
(`scaleDown_bounds`): the logarithm is scaled down once (`logarithm_eq_scaled`). But a product that was
rounded down can have as many digits as it has factors. It is divided by itself, and at the quotient
one the fixed answer takes the place of the series.
-/

namespace SeriesCalculator.Series

open Binary Decimal

variable {x : Float} {n : ℕ}

theorem value_two : value 2.0 = 2 := (value_ofNat (show 2 < 2 ^ 53 by decide)).2

theorem value_ten : value 10.0 = 10 := (value_ofNat (show 10 < 2 ^ 53 by decide)).2

theorem power_ten_succ (n : ℕ) : power 10.0 (n + 1) = power 10.0 n * 10.0 := by
  have notZero : (10.0 : Float) ≠ -0.0 := by decide
  rw [power_eq_plainPower notZero, power_eq_plainPower notZero, plainPower_succ]

/-- The largest power of ten among the doubles lies closely above a power of two. -/
theorem ten_pow_bounds : (2 : ℚ) ^ 1023 < 10 ^ 308 ∧ (100 * 10 ^ 308 : ℚ) < 112 * 2 ^ 1023 := by
  have binary : (2 : ℚ) ^ 1023 = (2 ^ 93) ^ 11 := (pow_mul 2 93 11)
  have decimal : (10 : ℚ) ^ 308 = (10 ^ 28) ^ 11 := (pow_mul 10 28 11)
  rw [binary, decimal]
  constructor
  · exact pow_lt_pow_left₀ (by norm_num) (by norm_num) (by decide)
  · calc (100 * (10 ^ 28) ^ 11 : ℚ) < 100 * (101 / 100 * 2 ^ 93) ^ 11 := by
          gcongr
          norm_num
      _ = 100 * (101 / 100) ^ 11 * (2 ^ 93) ^ 11 := by rw [mul_pow, mul_assoc]
      _ ≤ 112 * (2 ^ 93) ^ 11 := by
          gcongr
          norm_num

/-- A double that is a power of ten but for the roundings of as many factors. -/
structure IsTenPower (n : ℕ) (x : Float) : Prop where
  finite : x.isFinite = true
  error : |value x - 10 ^ n| ≤ 10 ^ n * (n / 2 ^ 52)

theorem IsTenPower.bounds (h : IsTenPower n x) (le : n ≤ 308) :
    999 * 10 ^ n ≤ 1000 * value x ∧ 1000 * value x ≤ 1001 * 10 ^ n := by
  have few : (n : ℚ) ≤ 308 := mod_cast le
  have relative : |value x - 10 ^ n| ≤ 10 ^ n * (1 / 1000) := by
    refine h.error.trans (mul_le_mul_of_nonneg_left ?_ (by positivity))
    rw [div_le_iff₀ (by norm_num)]
    linarith
  obtain ⟨low, high⟩ := abs_le.mp relative
  constructor <;> linarith

/-- Every factor of ten adds at most half a unit in the last place. -/
theorem IsTenPower.mul_ten (h : IsTenPower n x) (less : n < 308) :
    IsTenPower (n + 1) (x * 10.0) := by
  obtain ⟨low, high⟩ := h.bounds less.le
  have one : (1 : ℚ) ≤ 10 ^ n := one_le_pow₀ (by norm_num)
  have product_le : value x * value 10.0 ≤ 1001 / 1000 * 10 ^ (n + 1) := by
    rw [value_ten, pow_succ]
    linarith
  have nonneg : 0 ≤ value x * value 10.0 := by
    rw [value_ten]
    linarith
  have most : (10 : ℚ) ^ (n + 1) ≤ 10 ^ 308 := pow_le_pow_right₀ (by norm_num) less
  have room : |value x * value 10.0| < 2 ^ 1024 - 2 ^ 970 := by
    have largest := ten_pow_bounds.2
    have quarter : (2 : ℚ) ^ 970 ≤ 2 ^ 1022 := pow_le_pow_right₀ one_le_two (by decide)
    rw [abs_of_nonneg nonneg, pow_succ' _ 1023]
    rw [pow_succ' _ 1022] at largest ⊢
    generalize (2 : ℚ) ^ 1022 = unit at *
    generalize (2 : ℚ) ^ 970 = part at *
    generalize (10 : ℚ) ^ 308 = largest at *
    linarith
  obtain ⟨finite, rounding⟩ := value_mul h.finite rfl room
  refine ⟨finite, ?_⟩
  have unit : |value (x * 10.0) - value x * value 10.0| ≤ 10 ^ (n + 1) / 2 ^ 52 := by
    refine rounding.trans (max_le ?_ ?_)
    · rw [abs_of_nonneg nonneg]
      linarith
    · have least : (1 / 2 ^ 1075 : ℚ) ≤ 1 / 2 ^ 52 := by gcongr <;> norm_num
      refine least.trans ?_
      gcongr
      exact one_le_pow₀ (by norm_num)
  have carried : |value x * value 10.0 - 10 ^ (n + 1)| ≤ 10 ^ (n + 1) * (n / 2 ^ 52) := by
    have error := h.error
    rw [value_ten, pow_succ, ← sub_mul, abs_mul, abs_of_pos (show (0 : ℚ) < 10 by norm_num)]
    linarith
  calc |value (x * 10.0) - 10 ^ (n + 1)|
      ≤ 10 ^ (n + 1) / 2 ^ 52 + 10 ^ (n + 1) * (n / 2 ^ 52) :=
        (abs_sub_le _ _ _).trans (add_le_add unit carried)
    _ = 10 ^ (n + 1) * ((n + 1 : ℕ) / 2 ^ 52) := by
      push_cast
      ring

theorem isTenPower_power (le : n ≤ 308) : IsTenPower n (power 10.0 n) := by
  induction n with
  | zero =>
      have one : power 10.0 0 = 1.0 := rfl
      rw [one]
      exact ⟨rfl, by norm_num [value_one]⟩
  | succ n ih =>
      rw [power_ten_succ]
      exact (ih (Nat.le_of_succ_le le)).mul_ten le

/-- The next power of ten is too large for a double. -/
theorem isFinite_power_ten_overflow : (power 10.0 309).isFinite = false := by
  have last := isTenPower_power (le_refl 308)
  obtain ⟨low, -⟩ := last.bounds le_rfl
  obtain ⟨binary, -⟩ := ten_pow_bounds
  have pos : (0 : ℚ) < 2 ^ 1023 := by positivity
  rw [power_ten_succ]
  refine isFinite_mul_of_large last.finite rfl ?_
  rw [value_ten, pow_succ' _ 1023]
  refine le_trans ?_ (le_abs_self _)
  generalize (2 : ℚ) ^ 1023 = unit at *
  generalize (10 : ℚ) ^ 308 = scale at *
  linarith

theorem value_lt_of_isFinite (finite : x.isFinite = true) : value x < 2 * 10 ^ 308 := by
  have canonical := canonical_decode finite
  have binary : (2 ^ 53 * 2 ^ (971 : ℤ) : ℚ) = 2 * 2 ^ 1023 := by
    rw [zpow_ofNat, ← pow_add, ← pow_succ']
  have greatest : (2 : ℚ) ^ (decode x).exponent ≤ 2 ^ (971 : ℤ) :=
    zpow_le_zpow_right₀ one_le_two canonical.exponent_le
  calc value x ≤ |value x| := le_abs_self _
    _ < 2 ^ 53 * 2 ^ (decode x).exponent := canonical.abs_value_lt
    _ ≤ 2 * 2 ^ 1023 := by
      rw [← binary]
      gcongr
    _ < 2 * 10 ^ 308 := by
      have := ten_pow_bounds.1
      gcongr

theorem wholeDigits_le (finite : x.isFinite = true) (two : 2 ≤ value x) : wholeDigits x ≤ 309 := by
  obtain ⟨-, low, -⟩ := wholeDigits_bounds finite two
  have less := value_lt_of_isFinite finite
  have power : (10 : ℚ) ^ (wholeDigits x - 1) < 10 ^ 309 := by
    rw [pow_succ _ 308]
    generalize (10 : ℚ) ^ 308 = scale at *
    linarith
  have := (pow_lt_pow_iff_right₀ (show (1 : ℚ) < 10 by norm_num)).mp power
  omega

/-- The first step where the division is made in two. -/
theorem value_div_ten (finite : x.isFinite = true) (two : 2 ≤ value x) :
    (x / 10.0).isFinite = true ∧ |value (x / 10.0) - value x / 10| ≤ value x / 10 / 2 ^ 53 := by
  have ten : (10.0 : Float).isFinite = true := rfl
  have magnitude : |value x / value 10.0| = value x / 10 := by
    rw [value_ten]
    exact abs_of_nonneg (by linarith)
  have least := (two_zpow_le (show 1 / 20 ≤ value x / 10 by linarith)).trans_eq magnitude.symm
  have greatest : |value x / value 10.0| < 2 ^ (1023 : ℤ) := by
    have less := value_lt_of_isFinite finite
    have largest := ten_pow_bounds.2
    rw [magnitude, zpow_ofNat]
    generalize (2 : ℚ) ^ 1023 = unit at *
    generalize (10 : ℚ) ^ 308 = scale at *
    linarith
  obtain ⟨finite_tenth, error⟩ := abs_value_div_sub_le finite ten least greatest
  rw [magnitude, value_ten] at error
  exact ⟨finite_tenth, error⟩

/-- The scaled argument is positive and below two, and rounding makes it one only at the power of
ten that it is divided by. -/
theorem scaleDown_bounds (finite : x.isFinite = true) (two : 2 ≤ value x) :
    (scaleDown x (wholeDigits x)).isFinite = true ∧ 0 < value (scaleDown x (wholeDigits x)) ∧
      value (scaleDown x (wholeDigits x)) < 2 ∧
      (value (scaleDown x (wholeDigits x)) = 1 ↔ x = power 10.0 (wholeDigits x)) := by
  obtain ⟨pos, low, high⟩ := wholeDigits_bounds finite two
  have most := wholeDigits_le finite two
  generalize wholeDigits x = digits at *
  rw [scaleDown]
  rcases Nat.lt_or_eq_of_le most with le | rfl
  · have scale := isTenPower_power (Nat.le_of_lt_succ le)
    obtain ⟨scale_low, scale_high⟩ := scale.bounds (Nat.le_of_lt_succ le)
    obtain ⟨places, rfl⟩ := Nat.exists_eq_succ_of_ne_zero pos.ne'
    rw [if_pos scale.finite]
    have unit : (0 : ℚ) < 10 ^ places := by positivity
    rw [Nat.succ_sub_one] at low
    rw [pow_succ (10 : ℚ) places] at high scale_low scale_high
    exact div_bounds finite scale.finite (by linarith) (by linarith) (by linarith)
  · have less := value_lt_of_isFinite finite
    have scale := isTenPower_power (le_refl 308)
    obtain ⟨scale_low, scale_high⟩ := scale.bounds le_rfl
    obtain ⟨finite_tenth, error⟩ := value_div_ten finite two
    obtain ⟨near_low, near_high⟩ := abs_le.mp error
    have overflow : ¬ (power 10.0 309).isFinite = true := by
      rw [isFinite_power_ten_overflow]
      exact Bool.false_ne_true
    have places : 309 - 1 = 308 := rfl
    rw [if_neg overflow]
    rw [places] at low ⊢
    clear high
    have unit : (0 : ℚ) < 10 ^ 308 := by positivity
    generalize (10 : ℚ) ^ 308 = unit at *
    obtain ⟨finite_scaled, pos, less, one⟩ :=
      div_bounds finite_tenth scale.finite (by linarith) (by linarith) (by linarith)
    refine ⟨finite_scaled, pos, less, ?_⟩
    rw [one]
    refine iff_of_false ?_ ?_
    · intro same
      rw [same] at near_high
      linarith
    · intro same
      exact overflow (same ▸ finite)

/-- The argument of the logarithm that is left when its digits before the point are split off. -/
def scaledArgument (x : Float) : Float := scaleDown x (wholeDigits x)

/-- Where the scaled argument lies in the order of the doubles. -/
theorem scaledArgument_range (finite : x.isFinite = true) (two : 2 ≤ value x) :
    0.0 < scaledArgument x ∧ scaledArgument x < 2.0 ∧ scaledArgument x ≠ 10.0 ∧
      (scaledArgument x = 1.0 ↔ x = power 10.0 (wholeDigits x)) := by
  obtain ⟨finite_scaled, pos, less, one⟩ := scaleDown_bounds finite two
  rw [← scaledArgument] at finite_scaled pos less one
  refine ⟨?_, ?_, ?_, ?_⟩
  · rw [lt_iff_value_lt rfl finite_scaled, value_zero]
    exact pos
  · rw [lt_iff_value_lt finite_scaled rfl, value_two]
    exact less
  · intro ten
    rw [ten, value_ten] at less
    norm_num at less
  · rw [← one]
    constructor
    · intro same
      rw [same, value_one]
    · intro same
      exact eq_of_value_eq finite_scaled rfl (same.trans value_one.symm)
        (value_one.trans_ne one_ne_zero)

variable {terms : ℕ}

theorem requireTerms_of_pos {α : Type} (pos : 1 ≤ terms) (answer : Except DomainFault α) :
    requireTerms terms answer = answer :=
  if_neg (Nat.not_lt.mpr pos)

theorem logarithm_ten (pos : 1 ≤ terms) : logarithm 10.0 terms = .ok logarithmOfTen := by
  have notBelow : ¬ (10.0 : Float) ≤ 0.0 := by decide
  have number : (10.0 : Float).isNaN = false := rfl
  have finite : (10.0 : Float).isInf = false := rfl
  have ten : ((10.0 : Float) == 10.0) = true := rfl
  simp only [logarithm, requireTerms_of_pos pos, notBelow, number, finite, ten, decide_false,
    Bool.or_false, Bool.false_eq_true, if_false, if_true]

/-- The logarithm of a positive argument other than ten. -/
theorem logarithm_of_pos (finite : x.isFinite = true) (positive : 0 < value x)
    (notTen : value x ≠ 10) (pos : 1 ≤ terms) : logarithm x terms = .ok (
      if x < 2.0 then logarithmBelowTwo x terms
      else logarithmBelowTwo (scaledArgument x) terms +
        Binary.ofNat (wholeDigits x) * logarithmOfTen) := by
  have notBelow : ¬ x ≤ 0.0 := by
    rw [le_iff_value_le finite rfl, value_zero]
    exact not_le.mpr positive
  have other : (x == 10.0) = false := by
    rw [← Bool.not_eq_true, beq_iff_value_eq finite rfl, value_ten]
    exact notTen
  simp only [logarithm, requireTerms_of_pos pos, isNaN_eq_false finite, isInf_eq_false finite,
    notBelow, other, scaledArgument, decide_false, Bool.or_false, Bool.false_eq_true, if_false]
  split <;> rfl

/-- From two upward the logarithm takes one step to an argument below two, where the series gives
the answer. Only at a power of ten, as the multiplications give it, this argument is one: then the
fixed answer at one takes the place of the series. -/
theorem logarithm_eq_scaled (finite : x.isFinite = true) (two : 2.0 ≤ x) (notTen : x ≠ 10.0)
    (pos : 1 ≤ terms) :
    0.0 < scaledArgument x ∧ scaledArgument x < 2.0 ∧ scaledArgument x ≠ 10.0 ∧
      (scaledArgument x = 1.0 ↔ x = power 10.0 (wholeDigits x)) ∧
      logarithm x terms = (do
        let reduced ← logarithm (scaledArgument x) terms
        let ten ← logarithm 10.0 terms
        return reduced + Binary.ofNat (wholeDigits x) * ten) ∧
      (x ≠ power 10.0 (wholeDigits x) → logarithm x terms = .ok (
        logarithmSeries (scaledArgument x - 1.0) (terms - 2) 2 (scaledArgument x - 1.0) +
          Binary.ofNat (wholeDigits x) * logarithmOfTen)) ∧
      (x = power 10.0 (wholeDigits x) → logarithm x terms = .ok (
        logarithmOfOne + Binary.ofNat (wholeDigits x) * logarithmOfTen)) := by
  have two_le : 2 ≤ value x := by
    rw [← value_two]
    exact (le_iff_value_le rfl finite).mp two
  have other : value x ≠ 10 := by
    rw [← value_ten]
    intro ten
    exact notTen (eq_of_value_eq finite rfl ten (by rw [value_ten]; norm_num))
  have notBelow : ¬ x < 2.0 := by
    rw [lt_iff_value_lt finite rfl, value_two]
    exact not_lt.mpr two_le
  obtain ⟨finite_scaled, scaled_pos, scaled_less, scaled_one⟩ := scaleDown_bounds finite two_le
  obtain ⟨positive, less, below, one_iff⟩ := scaledArgument_range finite two_le
  rw [← scaledArgument] at finite_scaled scaled_pos scaled_less scaled_one
  have answer := logarithm_of_pos finite (two_pos.trans_le two_le) other pos
  rw [if_neg notBelow] at answer
  have reduced := logarithm_of_pos finite_scaled scaled_pos (by linarith) pos
  rw [if_pos less] at reduced
  refine ⟨positive, less, below, one_iff, ?_, ?_, ?_⟩
  · rw [answer, reduced, logarithm_ten pos]
    rfl
  · intro notPower
    have notOne : (scaledArgument x == 1.0) = false := by
      rw [← Bool.not_eq_true, beq_iff_value_eq finite_scaled rfl, value_one, scaled_one]
      exact notPower
    rw [answer, logarithmBelowTwo, notOne]
    rfl
  · intro atPower
    rw [answer, one_iff.mpr atPower]
    rfl

/-- An argument with four digits before the point. -/
theorem logarithm_eq_scaled_four_digits : (3456.789 : Float).isFinite = true ∧
    (2.0 : Float) ≤ 3456.789 ∧ (3456.789 : Float) ≠ 10.0 ∧ 1 ≤ 3 ∧
    scaledArgument 3456.789 < 2.0 ∧ logarithm 3456.789 3 = .ok (
      logarithmSeries (scaledArgument 3456.789 - 1.0) 1 2 (scaledArgument 3456.789 - 1.0) +
        Binary.ofNat (wholeDigits 3456.789) * logarithmOfTen) := by
  have finite : (3456.789 : Float).isFinite = true := rfl
  have two : (2.0 : Float) ≤ 3456.789 := by decide
  have notTen : (3456.789 : Float) ≠ 10.0 := by decide
  have notPower : (3456.789 : Float) ≠ power 10.0 (wholeDigits 3456.789) := by decide +kernel
  obtain ⟨-, less, -, -, -, series, -⟩ :=
    logarithm_eq_scaled finite two notTen (show 1 ≤ 3 by decide)
  exact ⟨finite, two, notTen, by decide, less, series notPower⟩

/-- The product of twenty-five factors of ten is rounded to a double with as many digits. -/
theorem logarithm_ne_series : ¬ ∀ (x : Float) (terms : ℕ), x.isFinite = true → 2.0 ≤ x → x ≠ 10.0 →
    1 ≤ terms → scaledArgument x ≠ 1.0 ∧ logarithm x terms = .ok (
      logarithmSeries (scaledArgument x - 1.0) (terms - 2) 2 (scaledArgument x - 1.0) +
        Binary.ofNat (wholeDigits x) * logarithmOfTen) := by
  intro always
  have scaled : scaledArgument (Float.ofBits 0x45208b2a2c280290) = 1.0 := by decide +kernel
  exact (always (Float.ofBits 0x45208b2a2c280290) 1 rfl (by decide) (by decide) le_rfl).1 scaled

end SeriesCalculator.Series
