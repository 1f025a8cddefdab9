import SeriesCalculator.Proofs.Binary.Product
import SeriesCalculator.Proofs.Binary.Sign

/-!
# Comparing doubles

Doubles are compared by sign, exponent and mantissa. Since only the least exponent has mantissas
without a leading bit, this is the comparison of their values (`lt_iff_value_lt`, `le_iff_value_le`,
`beq_iff_value_eq`), and doubles of one value that is not zero are the same (`eq_of_value_eq`).
-/

namespace SeriesCalculator.Binary

open Float.Model Float.Model.UnpackedFloat

variable {x y : Float} {d₁ d₂ : Decoded}

theorem lt_iff_unpack : x < y ↔ x.toModel.unpack.lt y.toModel.unpack = true :=
  decide_eq_true_iff

theorem le_iff_unpack : x ≤ y ↔ x.toModel.unpack.le y.toModel.unpack = true :=
  decide_eq_true_iff

theorem beq_eq_unpack : (x == y) = x.toModel.unpack.beq y.toModel.unpack := rfl

/-- A larger exponent makes a larger value, whatever the mantissas are. -/
theorem Decoded.Canonical.lt_of_exponent_lt (canonical₁ : d₁.Canonical) (canonical₂ : d₂.Canonical)
    (less : d₁.exponent < d₂.exponent) :
    (d₁.mantissa * 2 ^ d₁.exponent : ℚ) < d₂.mantissa * 2 ^ d₂.exponent := by
  have short : (d₁.mantissa : ℚ) < 2 ^ 53 := mod_cast canonical₁.mantissa_lt
  have long : (2 ^ 52 : ℚ) ≤ d₂.mantissa :=
    mod_cast canonical₂.normal (canonical₁.least_le.trans_lt less)
  calc (d₁.mantissa * 2 ^ d₁.exponent : ℚ)
      < 2 ^ 53 * 2 ^ d₁.exponent := by gcongr
    _ = 2 ^ 52 * 2 ^ (d₁.exponent + 1) := by
        rw [zpow_add_one₀ two_ne_zero]
        ring
    _ ≤ d₂.mantissa * 2 ^ d₂.exponent := by
        gcongr
        · norm_num
        · exact less

theorem compare_magnitudes (canonical₁ : d₁.Canonical) (canonical₂ : d₂.Canonical) :
    (compare d₁.exponent d₂.exponent).then (compare d₁.mantissa d₂.mantissa) =
      compare (d₁.mantissa * 2 ^ d₁.exponent : ℚ) (d₂.mantissa * 2 ^ d₂.exponent) := by
  rcases lt_trichotomy d₁.exponent d₂.exponent with less | same | greater
  · rw [compare_lt_iff_lt.mpr less,
      compare_lt_iff_lt.mpr (canonical₁.lt_of_exponent_lt canonical₂ less)]
    rfl
  · have monotone : StrictMono fun m : ℕ => (m * 2 ^ d₂.exponent : ℚ) := fun m n less => by
      have : (m : ℚ) < n := mod_cast less
      dsimp only
      gcongr
    rw [same, compare_eq_iff_eq.mpr rfl, ← cmp_eq_compare, ← cmp_eq_compare]
    exact (monotone.cmp_map_eq _ _).symm
  · rw [compare_gt_iff_gt.mpr greater,
      compare_gt_iff_gt.mpr (canonical₂.lt_of_exponent_lt canonical₁ greater)]
    rfl

theorem Decoded.unpacked_of_eq_zero {d : Decoded} (zero : d.mantissa = 0) :
    d.unpacked = .zero (signOf d.negative) :=
  dif_pos zero

theorem Decoded.unpacked_of_ne_zero {d : Decoded} (pos : d.mantissa ≠ 0) :
    d.unpacked = .finite (signOf d.negative) d.mantissa d.exponent (Nat.pos_of_ne_zero pos) :=
  dif_neg pos

/-- Comparing in unpacked form is comparing the values. -/
theorem compare_unpacked (canonical₁ : d₁.Canonical) (canonical₂ : d₂.Canonical) :
    d₁.unpacked.compare d₂.unpacked = some (compare d₁.value d₂.value) := by
  have magnitudes := compare_magnitudes canonical₁ canonical₂
  have pos₁ (nonzero : d₁.mantissa ≠ 0) : (0 : ℚ) < d₁.mantissa * 2 ^ d₁.exponent := by
    positivity
  have pos₂ (nonzero : d₂.mantissa ≠ 0) : (0 : ℚ) < d₂.mantissa * 2 ^ d₂.exponent := by
    positivity
  rw [Decoded.value_eq, Decoded.value_eq]
  by_cases zero₁ : d₁.mantissa = 0 <;> by_cases zero₂ : d₂.mantissa = 0
  · rw [Decoded.unpacked_of_eq_zero zero₁, Decoded.unpacked_of_eq_zero zero₂]
    simp [zero₁, zero₂, UnpackedFloat.compare]
  · rw [Decoded.unpacked_of_eq_zero zero₁, Decoded.unpacked_of_ne_zero zero₂, zero₁]
    cases d₂.negative
    · have less := compare_lt_iff_lt.mpr (pos₂ zero₂)
      simp [UnpackedFloat.compare, signOf, signFactor, less]
    · have less := compare_gt_iff_gt.mpr (neg_lt_zero.mpr (pos₂ zero₂))
      simp [UnpackedFloat.compare, signOf, signFactor, less]
  · rw [Decoded.unpacked_of_ne_zero zero₁, Decoded.unpacked_of_eq_zero zero₂, zero₂]
    cases d₁.negative
    · have less := compare_gt_iff_gt.mpr (pos₁ zero₁)
      simp [UnpackedFloat.compare, signOf, signFactor, less]
    · have less := compare_lt_iff_lt.mpr (neg_lt_zero.mpr (pos₁ zero₁))
      simp [UnpackedFloat.compare, signOf, signFactor, less]
  · rw [Decoded.unpacked_of_ne_zero zero₁, Decoded.unpacked_of_ne_zero zero₂]
    have pos₁ := pos₁ zero₁
    have pos₂ := pos₂ zero₂
    cases d₁.negative <;> cases d₂.negative
    · simp [UnpackedFloat.compare, signOf, signFactor, magnitudes]
    · have greater := compare_gt_iff_gt.mpr ((neg_lt_zero.mpr pos₂).trans pos₁)
      simp [UnpackedFloat.compare, signOf, signFactor, greater]
    · have less := compare_lt_iff_lt.mpr ((neg_lt_zero.mpr pos₁).trans pos₂)
      simp [UnpackedFloat.compare, signOf, signFactor, less]
    · have opposite : compare (-(d₁.mantissa * 2 ^ d₁.exponent) : ℚ)
          (-(d₂.mantissa * 2 ^ d₂.exponent)) =
          (compare (d₁.mantissa * 2 ^ d₁.exponent : ℚ) (d₂.mantissa * 2 ^ d₂.exponent)).swap := by
        rw [← cmp_eq_compare, ← cmp_eq_compare, cmp_swap]
        exact (strictMono_id.neg).cmp_map_eq _ _
      simp [UnpackedFloat.compare, signOf, signFactor, magnitudes, opposite]

theorem value_zero : value 0.0 = 0 := by
  have decoded : decode 0.0 = { negative := false, mantissa := 0, exponent := -1074 } := rfl
  rw [value, decoded]
  norm_num [Decoded.value, Decoded.signed]

theorem value_one : value 1.0 = 1 := by
  have decoded : decode 1.0 = { negative := false, mantissa := 2 ^ 52, exponent := -52 } := rfl
  rw [value, decoded]
  norm_num [Decoded.value, Decoded.signed]

variable (finite₁ : x.isFinite = true) (finite₂ : y.isFinite = true)

include finite₁ finite₂

theorem compare_unpack : x.toModel.unpack.compare y.toModel.unpack =
    some (compare (value x) (value y)) := by
  rw [unpack_toModel finite₁, unpack_toModel finite₂,
    compare_unpacked (canonical_decode finite₁) (canonical_decode finite₂)]
  rfl

theorem lt_iff_value_lt : x < y ↔ value x < value y := by
  rw [lt_iff_unpack, UnpackedFloat.lt, compare_unpack finite₁ finite₂, beq_iff_eq,
    Option.some_inj, compare_lt_iff_lt]

theorem le_iff_value_le : x ≤ y ↔ value x ≤ value y := by
  rw [le_iff_unpack, UnpackedFloat.le, compare_unpack finite₁ finite₂, ← compare_le_iff_le]
  exact Ordering.isLE_iff_ne_gt

theorem beq_iff_value_eq : (x == y) = true ↔ value x = value y := by
  rw [beq_eq_unpack, UnpackedFloat.beq, compare_unpack finite₁ finite₂, beq_iff_eq,
    Option.some_inj, compare_eq_iff_eq]

/-- Only zero has two doubles. -/
theorem eq_of_value_eq (equal : value x = value y) (nonzero : value y ≠ 0) : x = y := by
  have magnitudes := compare_magnitudes (canonical_decode finite₁) (canonical_decode finite₂)
  simp only [value, Decoded.value_eq] at equal nonzero
  have absolute : ((decode x).mantissa * 2 ^ (decode x).exponent : ℚ) =
      (decode y).mantissa * 2 ^ (decode y).exponent := by
    have := congrArg (|·|) equal
    simpa only [abs_mul, abs_signFactor, one_mul, Nat.abs_cast, abs_zpow, abs_two] using this
  rw [absolute] at equal
  rw [compare_eq_iff_eq.mpr absolute, Ordering.then_eq_eq, compare_eq_iff_eq,
    compare_eq_iff_eq] at magnitudes
  have signs := mul_right_cancel₀ (right_ne_zero_of_mul nonzero) equal
  have negative : (decode x).negative = (decode y).negative := by
    revert signs
    cases (decode x).negative <;> cases (decode y).negative <;> norm_num [signFactor]
  apply eq_of_unpack_eq
  rw [unpack_toModel finite₁, unpack_toModel finite₂, Decoded.unpacked, Decoded.unpacked]
  simp only [negative, magnitudes]

omit finite₂ in
theorem eq_zero_of_value_eq_zero (zero : value x = 0) : x = 0.0 ∨ x = -0.0 := by
  have mantissa : (decode x).mantissa = 0 := by
    have sign : signFactor (decode x).negative ≠ 0 := by
      cases (decode x).negative <;> norm_num [signFactor]
    rw [value, Decoded.value_eq, mul_eq_zero_iff_left sign] at zero
    exact_mod_cast (mul_eq_zero_iff_right (by positivity)).mp zero
  have unpacked := unpack_toModel finite₁
  rw [Decoded.unpacked_of_eq_zero mantissa] at unpacked
  cases sign : (decode x).negative with
  | false => exact .inl (eq_of_unpack_eq (by rw [unpacked, sign]; rfl))
  | true => exact .inr (eq_of_unpack_eq (by rw [unpacked, sign]; rfl))

omit finite₁ in
/-- What is equal to a finite double in a comparison is this double, if it is not zero. -/
theorem eq_of_beq (equal : (x == y) = true) (nonzero : value y ≠ 0) : x = y := by
  have finite : x.isFinite = true := by
    change x.toModel.unpack.isFinite = true
    rw [beq_eq_unpack, unpack_toModel finite₂, Decoded.unpacked] at equal
    cases unpacked : x.toModel.unpack with
    | notANumber => simp [unpacked, UnpackedFloat.beq, UnpackedFloat.compare] at equal
    | infinity s =>
        cases s <;> split at equal <;>
          simp [unpacked, UnpackedFloat.beq, UnpackedFloat.compare] at equal
    | zero s => rfl
    | finite s m e pos => rfl
  exact eq_of_value_eq finite finite₂ ((beq_iff_value_eq finite finite₂).mp equal) nonzero

end SeriesCalculator.Binary
