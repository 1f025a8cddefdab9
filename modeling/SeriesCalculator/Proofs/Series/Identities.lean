import SeriesCalculator.Proofs.Series.Sine

/-!
# Identities of the sine and the cosine

The sine of analysis is odd and has the period of a full turn, its cosine is even, and their squares
add up to one. The computed functions satisfy none of this exactly, since angles in different quadrants
are brought to the first one in different ways. But each of their values is near the one of analysis
(`exists_angleSine_eq_ok`), so each identity holds up to the errors of the values in it
(`angleSine_identities`).
-/

namespace SeriesCalculator.Series

open Scalar

variable {s t angle : ℚ}

theorem exactSine_quarterTurn_sub (angle : ℚ) :
    exactSine (quarterTurn - angle) = Real.cos (angle * (Real.pi / (pi : ℚ))) := by
  rw [exactSine, Rat.cast_sub, sub_mul, cast_quarterTurn_mul, Real.sin_pi_div_two_sub]

theorem exactSine_quarterTurn_sub_neg (angle : ℚ) :
    exactSine (quarterTurn - -angle) = exactSine (quarterTurn - angle) := by
  rw [exactSine_quarterTurn_sub, exactSine_quarterTurn_sub, Rat.cast_neg, neg_mul, Real.cos_neg]

theorem exactSine_add_fullTurn (angle : ℚ) : exactSine (angle + fullTurn) = exactSine angle := by
  have halves : angle = angle + fullTurn - pi - pi := by
    rw [fullTurn_eq]
    ring
  conv_rhs => rw [halves, exactSine_sub_pi, exactSine_sub_pi, neg_neg]

theorem exactSine_sq_add (angle : ℚ) :
    exactSine angle ^ 2 + exactSine (quarterTurn - angle) ^ 2 = 1 := by
  rw [exactSine_quarterTurn_sub, exactSine, Real.sin_sq_add_cos_sq]

/-- What the computed sine of any angle may be off by: seven calls add twice the error of the series
each. -/
noncomputable def sineError : ℝ := 15 * seriesError

/-- The computed sine has a value, and it is near the sine of analysis. -/
theorem exists_angleSine_eq_ok (angle : ℚ) :
    ∃ s : ℚ, angleSine angle = .ok s ∧ |(s : ℝ) - exactSine angle| ≤ sineError := by
  obtain ⟨s, answer, error⟩ := exists_sineNear_seven angle
  refine ⟨s, answer _ (by decide), error.trans ?_⟩
  rw [sineError]
  norm_num

/-- Six times what a sine may be off by is below a thousandth. -/
theorem abs_le_of_abs_cast_le (small : |(s : ℝ)| ≤ 6 * sineError) : |s| ≤ 1 / 1000 := by
  rw [sineError, seriesError] at small
  rw [← Rat.cast_le (K := ℝ), Rat.cast_abs]
  norm_num at small ⊢
  linarith

/-- Two numbers that are near the same value are near each other. -/
theorem abs_sub_le_of_near {value : ℝ} (near : |(s : ℝ) - value| ≤ sineError)
    (near' : |(t : ℝ) - value| ≤ sineError) : |s - t| ≤ 1 / 1000 := by
  have nonneg : 0 ≤ sineError := (abs_nonneg _).trans near
  refine abs_le_of_abs_cast_le ?_
  calc |((s - t : ℚ) : ℝ)| = |(s : ℝ) - t| := by rw [Rat.cast_sub]
    _ ≤ |(s : ℝ) - value| + |value - t| := abs_sub_le _ _ _
    _ ≤ sineError + sineError := add_le_add near ((abs_sub_comm _ _).trans_le near')
    _ ≤ 6 * sineError := by linarith

/-- The square of a number near a value of magnitude at most one. -/
theorem abs_sq_sub_sq_le {value : ℝ} (near : |(s : ℝ) - value| ≤ sineError) (le : |value| ≤ 1) :
    |(s : ℝ) ^ 2 - value ^ 2| ≤ 3 * sineError := by
  have sum : |(s : ℝ) + value| ≤ 3 := by
    have magnitude := abs_sub_abs_le_abs_sub (s : ℝ) value
    rw [sineError, seriesError] at near
    linarith [abs_add_le (s : ℝ) value]
  calc |(s : ℝ) ^ 2 - value ^ 2| = |(s : ℝ) + value| * |(s : ℝ) - value| := by
        rw [sq_sub_sq, abs_mul]
    _ ≤ 3 * sineError := by gcongr

/-- Numbers near the sine and the cosine of one angle have squares that add up to almost one. -/
theorem abs_sq_add_sq_sub_one_le (sine : |(s : ℝ) - exactSine angle| ≤ sineError)
    (cosine : |(t : ℝ) - exactSine (quarterTurn - angle)| ≤ sineError) :
    |s ^ 2 + t ^ 2 - 1| ≤ 1 / 1000 := by
  have first := abs_sq_sub_sq_le sine (abs_exactSine_le _)
  have second := abs_sq_sub_sq_le cosine (abs_exactSine_le _)
  have split : ((s ^ 2 + t ^ 2 - 1 : ℚ) : ℝ) = ((s : ℝ) ^ 2 - exactSine angle ^ 2) +
      ((t : ℝ) ^ 2 - exactSine (quarterTurn - angle) ^ 2) := by
    push_cast
    rw [← exactSine_sq_add angle]
    ring
  refine abs_le_of_abs_cast_le ?_
  calc |((s ^ 2 + t ^ 2 - 1 : ℚ) : ℝ)| ≤ 3 * sineError + 3 * sineError := by
        rw [split]
        exact (abs_add_le _ _).trans (add_le_add first second)
    _ = 6 * sineError := by ring

/-- With exact rational numbers the sine and the cosine of every angle have values, and up to a
thousandth the sine is odd, the cosine is even, the sine has the period of a full turn, and the two
squares add up to one. -/
theorem angleSine_identities (angle : ℚ) :
    ∃ s c sNeg cNeg sTurned : ℚ,
      angleSine angle = .ok s ∧ angleCosine angle = .ok c ∧
      angleSine (-angle) = .ok sNeg ∧ angleCosine (-angle) = .ok cNeg ∧
      angleSine (angle + fullTurn) = .ok sTurned ∧
      |sNeg + s| ≤ 1 / 1000 ∧ |cNeg - c| ≤ 1 / 1000 ∧ |sTurned - s| ≤ 1 / 1000 ∧
      |s ^ 2 + c ^ 2 - 1| ≤ 1 / 1000 := by
  obtain ⟨s, sine, sineNear⟩ := exists_angleSine_eq_ok angle
  obtain ⟨c, cosine, cosineNear⟩ := exists_angleSine_eq_ok (quarterTurn - angle)
  obtain ⟨sNeg, opposite, oppositeNear⟩ := exists_angleSine_eq_ok (-angle)
  obtain ⟨cNeg, oppositeCosine, oppositeCosineNear⟩ :=
    exists_angleSine_eq_ok (quarterTurn - -angle)
  obtain ⟨sTurned, turned, turnedNear⟩ := exists_angleSine_eq_ok (angle + fullTurn)
  have odd : |sNeg + s| ≤ 1 / 1000 := by
    have near : |((-s : ℚ) : ℝ) - exactSine (-angle)| ≤ sineError := by
      rw [exactSine_neg, Rat.cast_neg, neg_sub_neg, abs_sub_comm]
      exact sineNear
    rw [← sub_neg_eq_add]
    exact abs_sub_le_of_near oppositeNear near
  have even : |cNeg - c| ≤ 1 / 1000 := by
    rw [exactSine_quarterTurn_sub_neg] at oppositeCosineNear
    exact abs_sub_le_of_near oppositeCosineNear cosineNear
  have periodic : |sTurned - s| ≤ 1 / 1000 := by
    rw [exactSine_add_fullTurn] at turnedNear
    exact abs_sub_le_of_near turnedNear sineNear
  exact ⟨s, c, sNeg, cNeg, sTurned, sine, cosine, opposite, oppositeCosine, turned, odd, even,
    periodic, abs_sq_add_sq_sub_one_le sineNear cosineNear⟩

end SeriesCalculator.Series
