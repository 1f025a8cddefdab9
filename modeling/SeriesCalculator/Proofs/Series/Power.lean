import SeriesCalculator.Proofs.Binary.Comparison
import SeriesCalculator.Proofs.Binary.Whole
import SeriesCalculator.Series.Root

/-!
# Whole powers and plain products

A power stops multiplying at a product that no factor can change but for its sign. What the factors
that are left would do to this sign depends on the sign of the base, and the power asks whether the
base is below zero instead. Negative zero has a sign and is not below zero: its even powers are the
only ones that differ from the plain product.
-/

namespace SeriesCalculator.Series

open Binary Float.Model.UnpackedFloat

/-- The plain product: one, multiplied by `x` just `n` times. -/
def plainPower (x : Float) (n : ℕ) : Float := (· * x)^[n] 1.0

variable {x product p : Float} {u v : Float.Model.UnpackedFloat} {n : ℕ}

/-- A factor leaves a product without a mantissa as it is, but for the sign: no zero meets an
infinity, and none of them meets what is not a number. -/
def Compatible : Float.Model.UnpackedFloat → Float.Model.UnpackedFloat → Prop
  | .zero _, .infinity _ | .infinity _, .zero _ => False
  | .zero _, .notANumber | .infinity _, .notANumber => False
  | _, _ => True

theorem compatible_finite {s : Sign} {m : ℕ} {e : ℤ} (pos : 0 < m) :
    Compatible u (.finite s m e pos) := by
  cases u <;> trivial

/-- What ends the multiplications early. -/
theorem isBare_unpack (product : Float) :
    isBare product.toModel.unpack = (product == 0.0 || !product.isFinite) := by
  change _ = (product.toModel.unpack.beq (.zero .positive) || !product.toModel.unpack.isFinite)
  cases product.toModel.unpack with
  | notANumber => rfl
  | infinity s => cases s <;> rfl
  | zero s => rfl
  | finite s m e pos => cases s <;> rfl

/-- A factor with a sign changes that of the product. -/
theorem mul_of_isBare (bare : isBare u = true) (compatible : Compatible u v) :
    mul .binary64 u v = if isNegative v then neg u else u := by
  cases u with
  | finite s m e pos => cases bare
  | notANumber => cases v <;> exact (ite_self _).symm
  | infinity s =>
      cases v with
      | notANumber => exact compatible.elim
      | zero t => exact compatible.elim
      | infinity t => cases s <;> cases t <;> rfl
      | finite t m e pos => cases s <;> cases t <;> rfl
  | zero s =>
      cases v with
      | notANumber => exact compatible.elim
      | infinity t => exact compatible.elim
      | zero t => cases s <;> cases t <;> rfl
      | finite t m e pos => cases s <;> cases t <;> rfl

theorem mul_eq_of_isBare (bare : isBare product.toModel.unpack = true)
    (compatible : Compatible product.toModel.unpack x.toModel.unpack) :
    product * x = if (decode x).negative then -product else product := by
  rw [mul_eq_pack, mul_of_isBare bare compatible, isNegative_unpack, neg_eq_pack]
  split
  · rfl
  · rw [← eq_pack]

/-- After a multiplication the factor is compatible with the product. -/
theorem compatible_mul (product x : Float) :
    Compatible (product * x).toModel.unpack x.toModel.unpack := by
  change Compatible (Float.Model.pack (mul .binary64 product.toModel.unpack
    x.toModel.unpack)).unpack x.toModel.unpack
  generalize product.toModel.unpack = u
  generalize x.toModel.unpack = v
  cases v with
  | finite s m e pos => exact compatible_finite pos
  | notANumber =>
      rw [unpack_pack_of_isBare (by cases u <;> rfl)]
      cases u <;> trivial
  | infinity s =>
      rw [unpack_pack_of_isBare (by cases u <;> rfl)]
      cases u <;> trivial
  | zero s =>
      rw [unpack_pack_of_isBare (by cases u <;> rfl)]
      cases u <;> trivial

/-- What the factors that are left do to a product without a mantissa. -/
theorem iterate_mul_of_isBare (bare : isBare product.toModel.unpack = true)
    (compatible : Compatible product.toModel.unpack x.toModel.unpack) :
    (· * x)^[n] product = if (decode x).negative ∧ n % 2 = 1 then -product else product := by
  induction n generalizing product with
  | zero => simp
  | succ n ih =>
      have next := mul_eq_of_isBare bare compatible
      rw [Function.iterate_succ_apply]
      cases negative : (decode x).negative with
      | false =>
          simp only [negative, Bool.false_eq_true, if_false, false_and] at next ih ⊢
          rw [next, ih bare compatible]
      | true =>
          simp only [negative, if_true, true_and] at next ih ⊢
          rw [next, ih (by rw [unpack_neg, isBare_neg, bare]) (next ▸ compatible_mul product x),
            float_neg_neg]
          rcases Nat.mod_two_eq_zero_or_one n with even | odd
          · simp [even, Nat.succ_mod_two_eq_one_iff.mpr even]
          · simp [odd, Nat.succ_mod_two_eq_zero_iff.mpr odd]

/-- Being below zero is having a sign, but for negative zero. -/
theorem lt_zero_iff (notNegativeZero : x ≠ -0.0) : x < 0.0 ↔ (decode x).negative = true := by
  have notZero : x.toModel.unpack ≠ .zero .negative := fun zero =>
    notNegativeZero (eq_of_unpack_eq zero)
  rw [lt_iff_unpack, ← isNegative_unpack]
  change x.toModel.unpack.lt (.zero .positive) = true ↔ _
  cases unpacked : x.toModel.unpack with
  | notANumber => decide
  | infinity s => cases s <;> decide
  | zero s =>
      cases s with
      | positive => decide
      | negative => exact absurd unpacked notZero
  | finite s m e pos => cases s <;> exact Iff.rfl

/-- Multiplying with an early end is multiplying to the end. -/
theorem repeatedProduct_eq_iterate (notNegativeZero : x ≠ -0.0) (n : ℕ)
    (compatible : Compatible product.toModel.unpack x.toModel.unpack) :
    repeatedProduct x n product = (· * x)^[n] product := by
  induction n generalizing product with
  | zero => rfl
  | succ n ih =>
      rw [repeatedProduct, ← isBare_unpack]
      cases bare : isBare product.toModel.unpack with
      | false =>
          simp only [Bool.false_eq_true, if_false]
          rw [ih (compatible_mul product x), Function.iterate_succ_apply]
      | true =>
          rw [iterate_mul_of_isBare bare compatible, if_pos rfl]
          simp only [Bool.and_eq_true, decide_eq_true_eq, lt_zero_iff notNegativeZero, beq_iff_eq]

theorem eq_one_of_beq (equal : (x == 1.0) = true) : x = 1.0 :=
  eq_of_beq rfl equal (value_one.trans_ne one_ne_zero)

theorem eq_of_magnitude_eq_one (one : (magnitude x == 1.0) = true) : x = 1.0 ∨ x = -1.0 := by
  rw [magnitude] at one
  split at one
  · exact .inl (eq_one_of_beq one)
  · right
    rw [← float_neg_neg x, eq_one_of_beq one]

theorem plainPower_zero (x : Float) : plainPower x 0 = 1.0 := rfl

theorem plainPower_succ (x : Float) (n : ℕ) : plainPower x (n + 1) = plainPower x n * x :=
  Function.iterate_succ_apply' _ _ _

theorem plainPower_one (n : ℕ) : plainPower 1.0 n = 1.0 := by
  have unit : (1.0 : Float) * 1.0 = 1.0 := rfl
  exact Function.iterate_fixed (f := (· * 1.0)) unit n

theorem plainPower_neg_one (n : ℕ) :
    plainPower (-1.0) n = if n % 2 = 1 then -1.0 else 1.0 := by
  have even : (1.0 : Float) * -1.0 = -1.0 := rfl
  have odd : (-1.0 : Float) * -1.0 = 1.0 := rfl
  induction n with
  | zero => rfl
  | succ n ih =>
      rw [plainPower_succ, ih]
      rcases Nat.mod_two_eq_zero_or_one n with zero | one
      · simp [zero, Nat.succ_mod_two_eq_one_iff.mpr zero, even]
      · simp [one, Nat.succ_mod_two_eq_zero_iff.mpr one, odd]

theorem plainPower_neg_zero (pos : n ≠ 0) :
    plainPower (-0.0) n = if n % 2 = 1 then -0.0 else 0.0 := by
  have first : (1.0 : Float) * -0.0 = -0.0 := rfl
  have even : (-0.0 : Float) * -0.0 = 0.0 := rfl
  have odd : (0.0 : Float) * -0.0 = -0.0 := rfl
  obtain ⟨n, rfl⟩ := Nat.exists_eq_succ_of_ne_zero pos
  induction n with
  | zero => exact first
  | succ n ih =>
      rw [plainPower_succ, ih n.succ_ne_zero]
      rcases Nat.mod_two_eq_zero_or_one n.succ with zero | one
      · simp [zero, Nat.succ_mod_two_eq_one_iff.mpr zero, odd]
      · simp [one, Nat.succ_mod_two_eq_zero_iff.mpr one, even]

/-- The shortcuts change nothing. -/
theorem power_eq_plainPower (notNegativeZero : x ≠ -0.0) (n : ℕ) :
    power x n = plainPower x n := by
  rw [power]
  split
  · rename_i one
    rcases eq_of_magnitude_eq_one one with rfl | rfl
    · have notBelow : ¬ (1.0 : Float) < 0.0 := by decide
      simp [notBelow, plainPower_one]
    · have below : (-1.0 : Float) < 0.0 := by decide
      simp [below, plainPower_neg_one]
  · have compatible : Compatible (1.0 : Float).toModel.unpack x.toModel.unpack := by
      have one : (1.0 : Float).toModel.unpack = .finite .positive (2 ^ 52) (-52) (by decide) := rfl
      rw [one]
      cases x.toModel.unpack <;> trivial
    exact repeatedProduct_eq_iterate notNegativeZero n compatible

theorem power_neg_zero (pos : n ≠ 0) : power (-0.0) n = -0.0 := by
  have magnitude : (magnitude (-0.0) == 1.0) = false := rfl
  have start : ((1.0 : Float) == 0.0 || !(1.0 : Float).isFinite) = false := rfl
  have first : (1.0 : Float) * -0.0 = -0.0 := rfl
  have zero : ((-0.0 : Float) == 0.0) = true := rfl
  have notBelow : ¬ (-0.0 : Float) < 0.0 := by decide
  obtain ⟨n, rfl⟩ := Nat.exists_eq_succ_of_ne_zero pos
  rw [power, magnitude, repeatedProduct, start, first]
  cases n with
  | zero => rfl
  | succ n => simp [repeatedProduct, zero, notBelow]

theorem nearest_nonneg (nonneg : 0.0 ≤ p) (finite : p.isFinite = true) : 0 ≤ nearest p := by
  have nonneg := (le_iff_value_le rfl finite).mp nonneg
  rw [value_zero] at nonneg
  have near := (abs_le.mp (abs_nearest_sub_le p)).1
  have : (-1 : ℚ) < nearest p := by linarith
  have : -1 < nearest p := mod_cast this
  omega

/-- An integer is recognized as one, whatever its size. -/
theorem isWhole_of_value_eq {m : ℤ} (finite : p.isFinite = true) (whole : value p = m) :
    isWhole p = true ∧ nearest p = m := by
  have nearest_eq : nearest p = m := by
    have near := abs_nearest_sub_le p
    rw [whole, ← Int.cast_sub, ← Int.cast_abs] at near
    have : |nearest p - m| < 1 := by
      rw [← Int.cast_lt (R := ℚ)]
      exact near.trans_lt (by norm_num)
    rw [Int.abs_lt_one_iff] at this
    omega
  refine ⟨?_, nearest_eq⟩
  rw [isWhole, finite, nearest_eq]
  by_cases zero : m = 0
  · rw [zero, Int.cast_zero] at whole
    rcases eq_zero_of_value_eq_zero finite whole with rfl | rfl
    · rw [zero]
      rfl
    · rw [zero]
      rfl
  · rw [ofInt_eq_of_value_eq finite zero whole, float_sub_self finite]
    rfl

theorem isFinite_of_isWhole (whole : isWhole p = true) : p.isFinite = true :=
  (Bool.and_eq_true_iff.mp whole).1

theorem pow_of_isWhole (whole : isWhole p = true) (x : Float) :
    pow x p = .ok (integerPower x (nearest p)) := by
  rw [pow, isFinite_of_isWhole whole, whole]
  rfl

/-- A power with a whole exponent that is not negative is the plain product, but for the even powers
of negative zero. These are negative zero, and the plain product is positive zero. -/
theorem pow_eq_plainPower_iff (x : Float) (nonneg : 0.0 ≤ p) (whole : isWhole p = true)
    (fits : nearest p < 2 ^ 64) :
    ∃ v, pow x p = .ok v ∧
      (v = plainPower x (nearest p).toNat ↔
        ¬(x = -0.0 ∧ nearest p ≠ 0 ∧ Even (nearest p))) ∧
      (x = -0.0 ∧ nearest p ≠ 0 → v = -0.0) := by
  have nonneg := nearest_nonneg nonneg (isFinite_of_isWhole whole)
  rw [pow_of_isWhole whole]
  generalize nearest p = m at *
  lift m to ℕ using nonneg
  have count : integerPower x m = power x m := by
    have : m ≤ maxFactors := by
      change m ≤ 2 ^ 64 - 1
      omega
    rw [integerPower, if_neg (by omega), Int.toNat_natCast, min_eq_left this]
  refine ⟨_, rfl, ?_⟩
  rw [count, Int.toNat_natCast, Int.even_coe_nat, Nat.cast_ne_zero]
  by_cases negativeZero : x = -0.0
  · subst negativeZero
    by_cases zero : m = 0
    · subst zero
      exact ⟨iff_of_true rfl (fun h => h.2.1 rfl), fun h => absurd rfl h.2⟩
    · have differ : (-0.0 : Float) ≠ 0.0 := by decide
      rw [power_neg_zero zero, plainPower_neg_zero zero]
      refine ⟨?_, fun _ => rfl⟩
      rcases Nat.even_or_odd m with even | odd
      · simp [Nat.even_iff.mp even, even, zero, differ]
      · simp [Nat.odd_iff.mp odd, Nat.not_even_iff_odd.mpr odd]
  · exact ⟨iff_of_true (power_eq_plainPower negativeZero m) (fun h => negativeZero h.1),
      fun h => absurd h.1 negativeZero⟩

/-- An infinite base, whose first factor ends the multiplications. -/
theorem pow_eq_plainPower_infinite :
    (0.0 : Float) ≤ 3.0 ∧ isWhole 3.0 = true ∧ nearest 3.0 < 2 ^ 64 ∧
      pow (-(1.0 / 0.0)) 3.0 = .ok (plainPower (-(1.0 / 0.0)) (nearest 3.0).toNat) := by
  have nonneg : (0.0 : Float) ≤ 3.0 := by decide
  have three : value 3.0 = (3 : ℤ) := (value_ofNat (show 3 < 2 ^ 53 by decide)).2
  obtain ⟨whole, nearest_three⟩ := isWhole_of_value_eq rfl three
  have fits : nearest 3.0 < 2 ^ 64 := by
    rw [nearest_three]
    decide
  have notZero : -(1.0 / 0.0 : Float) ≠ -0.0 := by decide
  obtain ⟨v, answer, equal, -⟩ := pow_eq_plainPower_iff (-(1.0 / 0.0)) nonneg whole fits
  refine ⟨nonneg, whole, fits, ?_⟩
  rw [answer, equal.mpr fun h => notZero h.1]

/-- The square of negative zero keeps the sign. -/
theorem pow_ne_plainPower : ¬ ∀ x p : Float, 0.0 ≤ p → isWhole p = true → nearest p < 2 ^ 64 →
    pow x p = .ok (plainPower x (nearest p).toNat) := by
  intro always
  have two : value 2.0 = (2 : ℤ) := (value_ofNat (show 2 < 2 ^ 53 by decide)).2
  obtain ⟨whole, nearest_two⟩ := isWhole_of_value_eq rfl two
  have square := always (-0.0) 2.0 (by decide) whole (by rw [nearest_two]; decide)
  have answer : pow (-0.0) 2.0 = .ok (-0.0) := by
    rw [pow_of_isWhole whole, nearest_two]
    exact congrArg Except.ok (power_neg_zero two_ne_zero)
  rw [answer, nearest_two, Except.ok.injEq] at square
  exact absurd square (by decide)

end SeriesCalculator.Series
