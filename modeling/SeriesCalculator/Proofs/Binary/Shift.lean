import SeriesCalculator.Proofs.Binary.Value

/-!
# Quotients with a round bit and a sticky bit

Bits below the last place that a double has are cut off, and a round bit and a sticky bit keep what has
to be known of them. So does a division with what it leaves (`IsQuotient`). Shifting keeps the meaning
of the two bits, and rounding by them is off by at most one half (`IsQuotient.roundedMantissa_bounds`).
Where only bits are cut off, it is rounding to the nearest whole number, a tie to the even one
(`IsShifted.roundedMantissa_eq`), as `shiftToNearestEven` does.
-/

namespace SeriesCalculator.Binary

open Float.Model Float.Model.UnpackedFloat

/-- The whole part of a quotient. The round bit says that the rest is at least one half, and without
the sticky bit it is just nothing or just one half. -/
structure IsQuotient (em : ExtendedMantissa) (num den : Nat) : Prop where
  mantissa : em.mantissa = num / den
  roundBit : em.roundBit = true ↔ den ≤ 2 * (num % den)
  stickyBit : em.stickyBit = false ↔ num % den = 0 ∨ 2 * (num % den) = den

variable {em : ExtendedMantissa} {num den n shift : Nat}

theorem isQuotient_accuracyOfFraction (num : Nat) (pos : 0 < den) :
    IsQuotient (.ofMantissaAndAccuracy (num / den) (accuracyOfFraction (num % den) den)) num den := by
  rw [accuracyOfFraction]
  split
  · rename_i zero
    constructor <;> simp [ExtendedMantissa.ofMantissaAndAccuracy, zero]
    omega
  · rename_i rest
    cases half : compare (2 * (num % den)) den with
    | lt =>
        have := Nat.compare_eq_lt.mp half
        constructor <;> simp [ExtendedMantissa.ofMantissaAndAccuracy] <;> omega
    | eq =>
        have := Nat.compare_eq_eq.mp half
        constructor <;> simp [ExtendedMantissa.ofMantissaAndAccuracy] <;> omega
    | gt =>
        have := Nat.compare_eq_gt.mp half
        constructor <;> simp [ExtendedMantissa.ofMantissaAndAccuracy] <;> omega

namespace IsQuotient

theorem shiftRightOne (pos : 0 < den) (h : IsQuotient em num den) :
    IsQuotient em.shiftRightOne num (den * 2) := by
  have cut := Nat.mod_lt num pos
  have next : num % (den * 2) = num % den + den * (num / den % 2) := Nat.mod_mul
  obtain ⟨mantissa, roundBit, stickyBit⟩ := h
  refine ⟨?_, ?_, ?_⟩
  · rw [ExtendedMantissa.shiftRightOne, mantissa, Nat.div_div_eq_div_mul]
  · rw [next, ExtendedMantissa.shiftRightOne, ← mantissa]
    rcases Nat.mod_two_eq_zero_or_one em.mantissa with even | odd
    · simp [even]
      omega
    · simp [odd]
      omega
  · rw [next, ExtendedMantissa.shiftRightOne, ← mantissa, Bool.or_eq_false_iff,
      stickyBit, ← Bool.not_eq_true, roundBit]
    rcases Nat.mod_two_eq_zero_or_one em.mantissa with even | odd
    · rw [even]
      omega
    · rw [odd]
      omega

theorem shiftRight (pos : 0 < den) (h : IsQuotient em num den) (shift : Nat) :
    IsQuotient (em >>> shift) num (den * 2 ^ shift) := by
  induction shift with
  | zero =>
      rw [Nat.pow_zero, Nat.mul_one]
      exact h
  | succ shift ih =>
      rw [Nat.pow_succ, ← Nat.mul_assoc]
      exact ih.shiftRightOne (Nat.mul_pos pos (Nat.two_pow_pos shift))

/-- Rounding by the two bits is off by at most one half. -/
theorem roundedMantissa_bounds (pos : 0 < den) (h : IsQuotient em num den) :
    2 * num ≤ 2 * (em.roundedMantissa * den) + den ∧
      2 * (em.roundedMantissa * den) ≤ 2 * num + den := by
  have split := Nat.div_add_mod' num den
  have cut := Nat.mod_lt num pos
  obtain ⟨mantissa, round, sticky⟩ := h
  rw [← mantissa] at split
  have rounded : em.roundedMantissa = em.mantissa ∧ 2 * (num % den) ≤ den ∨
      em.roundedMantissa = em.mantissa + 1 ∧ den ≤ 2 * (num % den) := by
    obtain ⟨quotient, roundBit, stickyBit⟩ := em
    match roundBit, stickyBit with
    | false, false => exact .inl ⟨rfl, by simp at round; omega⟩
    | false, true => exact .inl ⟨rfl, by simp at round; omega⟩
    | true, true => exact .inr ⟨rfl, by simpa using round⟩
    | true, false =>
        have half : 2 * (num % den) = den := by
          simp at round sticky
          omega
        rcases Nat.mod_two_eq_zero_or_one quotient with even | odd
        · exact .inl ⟨congrArg (quotient + ·) even, half.le⟩
        · exact .inr ⟨congrArg (quotient + ·) odd, half.ge⟩
  rcases rounded with ⟨same, small⟩ | ⟨up, large⟩
  · rw [same]
    omega
  · rw [up, Nat.add_mul]
    omega

end IsQuotient

/-- A number that was shifted to the right. The round bit says that at least a half was cut off, and
without the sticky bit just nothing or just a half was. -/
structure IsShifted (em : ExtendedMantissa) (n shift : Nat) : Prop where
  mantissa : em.mantissa = n / 2 ^ shift
  roundBit : em.roundBit = true ↔ 2 ^ shift ≤ 2 * (n % 2 ^ shift)
  stickyBit : em.stickyBit = false ↔ n % 2 ^ shift = 0 ∨ 2 * (n % 2 ^ shift) = 2 ^ shift

theorem isQuotient_shiftRight (n shift : Nat) :
    IsQuotient (ExtendedMantissa.ofMantissaAndAccuracy n .exact >>> shift) n (2 ^ shift) := by
  have start : IsQuotient (.ofMantissaAndAccuracy n .exact) n 1 := by
    constructor <;> simp [ExtendedMantissa.ofMantissaAndAccuracy, Nat.mod_one]
  have shifted := start.shiftRight Nat.one_pos shift
  rwa [Nat.one_mul] at shifted

theorem isShifted_shiftRight (n shift : Nat) :
    IsShifted (ExtendedMantissa.ofMantissaAndAccuracy n .exact >>> shift) n shift :=
  ⟨(isQuotient_shiftRight n shift).mantissa, (isQuotient_shiftRight n shift).roundBit,
    (isQuotient_shiftRight n shift).stickyBit⟩

/-- Rounding by the two bits is rounding to the nearest whole number. -/
theorem IsShifted.roundedMantissa_eq (h : IsShifted em n shift) :
    em.roundedMantissa = shiftToNearestEven n shift := by
  obtain ⟨mantissa, round, sticky⟩ := h
  have pos := Nat.two_pow_pos shift
  simp only [shiftToNearestEven, Nat.shiftRight_eq_div_pow, Nat.one_shiftLeft, ← mantissa]
  obtain ⟨quotient, roundBit, stickyBit⟩ := em
  rw [ExtendedMantissa.roundedMantissa]
  simp only at round sticky ⊢
  generalize 2 ^ shift = unit at *
  generalize n % unit = rest at *
  match roundBit, stickyBit with
  | false, false => rw [if_neg (by grind)]; rfl
  | false, true => rw [if_neg (by grind)]; rfl
  | true, false =>
      have half : 2 * rest = unit := by grind
      show quotient + quotient % 2 = _
      grind
  | true, true => rw [if_pos (by grind)]; rfl

theorem div_le_shiftToNearestEven (n shift : Nat) : n / 2 ^ shift ≤ shiftToNearestEven n shift := by
  simp only [shiftToNearestEven, Nat.shiftRight_eq_div_pow]
  split <;> omega

theorem shiftToNearestEven_le (n shift : Nat) :
    shiftToNearestEven n shift ≤ n / 2 ^ shift + 1 := by
  simp only [shiftToNearestEven, Nat.shiftRight_eq_div_pow]
  split <;> omega

/-- Rounding a quotient is off by at most one half. -/
theorem shiftToNearestEven_bounds (n shift : Nat) :
    2 * n ≤ 2 * (shiftToNearestEven n shift * 2 ^ shift) + 2 ^ shift ∧
      2 * (shiftToNearestEven n shift * 2 ^ shift) ≤ 2 * n + 2 ^ shift := by
  have bounds := (isQuotient_shiftRight n shift).roundedMantissa_bounds (Nat.two_pow_pos shift)
  rwa [(isShifted_shiftRight n shift).roundedMantissa_eq] at bounds

theorem abs_shiftToNearestEven_sub_le (n shift : Nat) :
    |(shiftToNearestEven n shift * 2 ^ shift : ℚ) - n| ≤ 2 ^ shift / 2 := by
  obtain ⟨low, high⟩ := shiftToNearestEven_bounds n shift
  have low : (2 * n : ℚ) ≤ 2 * (shiftToNearestEven n shift * 2 ^ shift) + 2 ^ shift :=
    mod_cast low
  have high : (2 * (shiftToNearestEven n shift * 2 ^ shift) : ℚ) ≤ 2 * n + 2 ^ shift :=
    mod_cast high
  rw [abs_le]
  constructor <;> linarith

end SeriesCalculator.Binary
