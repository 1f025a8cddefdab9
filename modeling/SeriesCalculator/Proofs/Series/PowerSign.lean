import SeriesCalculator.Proofs.Binary.Quotient
import SeriesCalculator.Proofs.Series.Power

/-!
# The sign of a power

Every factor below zero changes the sign of a product, also where the product has become zero or
infinite, and a reciprocal keeps it. So a power of a negative base has a sign just if the number of
its factors is odd. Exponents past the largest number of factors count as this number, which is odd:
`pow_negative_iff` says for which exponents the sign is that of the exponent's parity.
-/

namespace SeriesCalculator.Series

open Binary Float.Model.UnpackedFloat

variable {x p : Float}

/-- The number of factors of a power with an integer exponent. -/
def factorCount (m : ℤ) : ℕ := min m.natAbs maxFactors

theorem integerPower_eq (x : Float) (m : ℤ) : integerPower x m =
    if m < 0 then 1.0 / power x (factorCount m) else power x (factorCount m) := by
  rw [integerPower, factorCount]
  split
  · rfl
  · rw [show m.toNat = m.natAbs by omega]

theorem odd_factorCount_iff (m : ℤ) : Odd (factorCount m) ↔ Odd m ∨ 2 ^ 64 ≤ |m| := by
  have odd : Odd (2 ^ 64 - 1) := by decide
  have magnitude : |m| = m.natAbs := Int.abs_eq_natAbs m
  rw [factorCount, show maxFactors = 2 ^ 64 - 1 from rfl]
  rcases lt_or_ge |m| (2 ^ 64) with less | ge
  · rw [min_eq_left (by omega), Int.natAbs_odd, or_iff_left (not_le.mpr less)]
  · rw [min_eq_right (by omega)]
    exact iff_of_true odd (.inr ge)

theorem exists_unpack_of_lt_zero (finite : x.isFinite = true) (below : x < 0.0) :
    ∃ m e pos, x.toModel.unpack = .finite .negative m e pos := by
  rw [lt_iff_unpack] at below
  change x.toModel.unpack.isFinite = true at finite
  change x.toModel.unpack.lt (.zero .positive) = true at below
  generalize x.toModel.unpack = u at *
  cases u with
  | notANumber => cases finite
  | infinity s => cases finite
  | zero s => cases below
  | finite s m e pos =>
      cases s with
      | negative => exact ⟨m, e, pos, rfl⟩
      | positive => cases below

/-- Every factor below zero changes the sign. -/
theorem plainPower_of_lt_zero (finite : x.isFinite = true) (below : x < 0.0) (n : ℕ) :
    (plainPower x n).isNaN = false ∧ (decode (plainPower x n)).negative = decide (Odd n) := by
  obtain ⟨m, e, pos, unpacked⟩ := exists_unpack_of_lt_zero finite below
  have negative : (decode x).negative = true := by
    rw [← isNegative_unpack, unpacked]
    rfl
  induction n with
  | zero =>
      have even : decide (Odd 0) = false := decide_eq_false (by decide)
      rw [plainPower_zero]
      exact ⟨rfl, even.symm⟩
  | succ n ih =>
      obtain ⟨number, sign⟩ := ih
      rw [plainPower_succ]
      have next : (plainPower x n * x).isNaN = false := by
        rw [isNaN_mul_of_finite unpacked, number]
      refine ⟨next, ?_⟩
      rw [negative_mul next, sign, negative, Bool.bne_true]
      rcases Nat.even_or_odd n with even | odd
      · simp [Nat.not_odd_iff_even.mpr even, even.add_one]
      · simp [odd, Nat.not_odd_iff_even.mpr odd.add_one]

/-- The last place of a large double is above the units. -/
theorem even_of_large {m : ℤ} (finite : p.isFinite = true) (whole : value p = m)
    (large : 2 ^ 64 ≤ |m|) : Even m := by
  have short : ((decode p).mantissa : ℚ) < 2 ^ 53 :=
    mod_cast (canonical_decode finite).mantissa_lt
  have magnitude : (|m| : ℚ) = (decode p).mantissa * 2 ^ (decode p).exponent := by
    rw [← whole, value, Decoded.value_eq, abs_mul, abs_signFactor, one_mul, abs_of_nonneg]
    positivity
  have above : 0 < (decode p).exponent := by
    by_contra! low
    have unit : (2 : ℚ) ^ (decode p).exponent ≤ 1 := zpow_le_one_of_nonpos₀ one_le_two low
    have large : (2 ^ 64 : ℚ) ≤ |(m : ℚ)| := by
      rw [← Int.cast_abs]
      exact_mod_cast large
    have : ((decode p).mantissa : ℚ) * 2 ^ (decode p).exponent ≤ 2 ^ 53 * 1 := by gcongr
    linarith
  obtain ⟨k, exponent⟩ : ∃ k : ℕ, (decode p).exponent = (k + 1 : ℕ) :=
    ⟨((decode p).exponent - 1).toNat, by omega⟩
  rw [exponent, zpow_natCast, ← Int.cast_abs] at magnitude
  have multiple : |m| = (decode p).mantissa * 2 ^ (k + 1) := mod_cast magnitude
  rw [← even_abs, multiple]
  exact (even_two.pow_of_ne_zero k.succ_ne_zero).mul_left _

theorem negative_reciprocal {v : Float} (number : v.isNaN = false) :
    (1.0 / v).isNaN = false ∧ (decode (1.0 / v)).negative = (decode v).negative := by
  have one : (1.0 : Float).toModel.unpack = .finite .positive (2 ^ 52) (-52) (by decide) := rfl
  have positive : (decode 1.0).negative = false := rfl
  have next : (1.0 / v).isNaN = false := by rw [isNaN_div_of_finite one, number]
  refine ⟨next, ?_⟩
  rw [negative_div next, positive, Bool.false_bne]

/-- An integer power of a negative base is signed as the number of its factors says. -/
theorem integerPower_of_lt_zero (finite : x.isFinite = true) (below : x < 0.0) (m : ℤ) :
    (integerPower x m).isNaN = false ∧
      ((decode (integerPower x m)).negative = true ↔ Odd (factorCount m)) := by
  have notNegativeZero : x ≠ -0.0 := by
    rintro rfl
    exact absurd below (by decide)
  obtain ⟨number, sign⟩ := plainPower_of_lt_zero finite below (factorCount m)
  rw [integerPower_eq, power_eq_plainPower notNegativeZero]
  split
  · obtain ⟨next, same⟩ := negative_reciprocal number
    exact ⟨next, by rw [same, sign, decide_eq_true_iff]⟩
  · exact ⟨number, by rw [sign, decide_eq_true_iff]⟩

theorem integerPower_neg_one (m : ℤ) :
    integerPower (-1.0) m = if Odd (factorCount m) then -1.0 else 1.0 := by
  have notNegativeZero : (-1.0 : Float) ≠ -0.0 := by decide
  have reciprocal : (1.0 : Float) / -1.0 = -1.0 := rfl
  have unit : (1.0 : Float) / 1.0 = 1.0 :=
    div_self_of_pos rfl (value_one.symm ▸ one_pos)
  rw [integerPower_eq, power_eq_plainPower notNegativeZero, plainPower_neg_one]
  by_cases odd : Odd (factorCount m)
  · rw [if_pos odd, if_pos (Nat.odd_iff.mp odd), reciprocal, ite_self]
  · rw [if_neg odd, if_neg (odd ∘ Nat.odd_iff.mpr), unit, ite_self]

/-- A power of a negative base has a sign if the exponent is odd, and also if it is of magnitude
`2 ^ 64` or more: there an odd number of factors stands for the exponent, which is even. -/
theorem pow_negative_iff {m : ℤ} (finite : x.isFinite = true) (below : x < 0.0)
    (finiteExponent : p.isFinite = true) (whole : value p = m) :
    ∃ v, pow x p = .ok v ∧ v.isNaN = false ∧
      ((decode v).negative = true ↔ Odd m ∨ 2 ^ 64 ≤ |m|) ∧
      (((decode v).negative = true ↔ Odd m) ↔ |m| < 2 ^ 64) ∧
      (x = -1.0 → v = if Odd m ∨ 2 ^ 64 ≤ |m| then -1.0 else 1.0) := by
  obtain ⟨isWhole, nearest⟩ := isWhole_of_value_eq finiteExponent whole
  obtain ⟨number, sign⟩ := integerPower_of_lt_zero finite below m
  have even := even_of_large finiteExponent whole
  rw [odd_factorCount_iff] at sign
  rw [pow_of_isWhole isWhole, nearest]
  refine ⟨_, rfl, number, sign, ?_, ?_⟩
  · rw [sign, ← not_le]
    constructor
    · intro parity large
      exact Int.not_odd_iff_even.mpr (even large) (parity.mp (.inr large))
    · intro small
      rw [or_iff_left small]
  · rintro rfl
    simp only [integerPower_neg_one, odd_factorCount_iff]

/-- An odd number of factors below one, with a negative exponent. -/
theorem pow_negative_iff_third :
    (-0.5 : Float).isFinite = true ∧ (-0.5 : Float) < 0.0 ∧ (-3.0 : Float).isFinite = true ∧
      value (-3.0) = (-3 : ℤ) ∧ ∃ v, pow (-0.5) (-3.0) = .ok v ∧ (decode v).negative = true := by
  have finite : (-0.5 : Float).isFinite = true := rfl
  have below : (-0.5 : Float) < 0.0 := by decide
  have finiteExponent : (-3.0 : Float).isFinite = true := rfl
  have decoded : decode (-3.0) =
      { negative := true, mantissa := 6755399441055744, exponent := -51 } := rfl
  have exact : value (-3.0) = (-3 : ℤ) := by
    rw [value, decoded]
    norm_num [Decoded.value, Decoded.signed]
  obtain ⟨v, answer, -, sign, -⟩ := pow_negative_iff finite below finiteExponent exact
  exact ⟨finite, below, finiteExponent, exact, v, answer, sign.mpr (.inl (by decide))⟩

/-- The sign of an even power of minus one. -/
theorem pow_negative_unsteady : ¬ ∀ (x p : Float) (m : ℤ), x.isFinite = true → x < 0.0 →
    p.isFinite = true → value p = m →
      ∃ v, pow x p = .ok v ∧ ((decode v).negative = true ↔ Odd m) := by
  intro always
  have decoded : decode (Float.ofBits 0x43F0000000000000) =
      { negative := false, mantissa := 2 ^ 52, exponent := 12 } := rfl
  have exact : value (Float.ofBits 0x43F0000000000000) = (2 ^ 64 : ℤ) := by
    rw [value, decoded]
    norm_num [Decoded.value, Decoded.signed]
  obtain ⟨whole, nearest⟩ := isWhole_of_value_eq rfl exact
  have answer : pow (-1.0) (Float.ofBits 0x43F0000000000000) = .ok (-1.0) := by
    have odd : Odd (factorCount (2 ^ 64)) := (odd_factorCount_iff _).mpr (.inr le_rfl)
    rw [pow_of_isWhole whole, nearest, integerPower_neg_one, if_pos odd]
  obtain ⟨v, same, sign⟩ := always (-1.0) _ _ rfl (by decide) rfl exact
  rw [answer, Except.ok.injEq] at same
  rw [← same] at sign
  exact absurd (sign.mp rfl) (by decide)

end SeriesCalculator.Series
