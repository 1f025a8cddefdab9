import SeriesCalculator.Proofs.Series.Quadrants

/-!
# The sine and its series

The sine that is computed is compared with the sine of analysis, on a scale where the constant of the
program is half a turn (`exactSine`). On the first quadrant the difference is what five terms of the
series leave over and the distance of the constant from `π` (`abs_sineSeries_sub_le`). Signs and whole
turns keep it, and a sum multiplies by the computed sine of a quarter turn, which is not quite one. So
the difference grows with every call at most by twice that of the series (`exists_sineNear`), and since
chains of calls are short, it stays small for all angles.
-/

namespace SeriesCalculator.Series

open Scalar

variable {angle : ℚ} {n : ℕ}

open Complex Finset in
/-- The imaginary part of the exponential series, without the terms from the eleventh power on. -/
theorem sin_sub_series (x : ℝ) :
    ((Real.sin x - (x - x ^ 3 / 6 + x ^ 5 / 120 - x ^ 7 / 5040 + x ^ 9 / 362880) : ℝ) : ℂ) =
      ((exp (-x * I) - ∑ m ∈ range 11, (-x * I) ^ m / m.factorial) -
        (exp (x * I) - ∑ m ∈ range 11, (x * I) ^ m / m.factorial)) * (I / 2) := by
  simp only [sum_range_succ, range_zero, sum_empty, Nat.factorial]
  push_cast
  rw [Complex.sin]
  grind [I_sq]

theorem abs_sin_sub_series_le {x : ℝ} (le : |x| ≤ 6) :
    |Real.sin x - (x - x ^ 3 / 6 + x ^ 5 / 120 - x ^ 7 / 5040 + x ^ 9 / 362880)| ≤
      |x| ^ 11 / 19958400 := by
  have rest {z : ℂ} (norm : ‖z‖ = |x|) :
      ‖Complex.exp z - ∑ m ∈ Finset.range 11, z ^ m / m.factorial‖ ≤ |x| ^ 11 / 19958400 := by
    have small : ‖z‖ / (11 : ℕ).succ ≤ 1 / 2 := by
      rw [norm]
      push_cast
      linarith
    have := Complex.exp_bound' small
    rw [norm] at this
    norm_num [Nat.factorial] at this ⊢
    linarith
  have below := rest (show ‖-x * Complex.I‖ = |x| by simp)
  have above := rest (show ‖x * Complex.I‖ = |x| by simp)
  rw [← Real.norm_eq_abs, ← Complex.norm_real, sin_sub_series, norm_mul]
  have half : ‖Complex.I / 2‖ = 1 / 2 := by simp
  rw [half]
  have both := (norm_sub_le _ _).trans (add_le_add below above)
  linarith

/-- The sine, on a scale where `pi` is half a turn. -/
noncomputable def exactSine (angle : ℚ) : ℝ := Real.sin (angle * (Real.pi / (pi : ℚ)))

theorem cast_pi_mul : ((pi : ℚ) * (Real.pi / (pi : ℚ)) : ℝ) = Real.pi :=
  mul_div_cancel₀ _ (Rat.cast_ne_zero.mpr pi_pos.ne')

theorem exactSine_neg (angle : ℚ) : exactSine (-angle) = -exactSine angle := by
  rw [exactSine, exactSine, Rat.cast_neg, neg_mul, Real.sin_neg]

theorem exactSine_pi_sub (angle : ℚ) : exactSine (pi - angle) = exactSine angle := by
  rw [exactSine, exactSine, Rat.cast_sub, sub_mul, cast_pi_mul, Real.sin_pi_sub]

theorem exactSine_sub_pi (angle : ℚ) : exactSine (angle - pi) = -exactSine angle := by
  rw [← neg_sub, exactSine_neg, exactSine_pi_sub]

theorem cast_quarterTurn_mul :
    ((quarterTurn : ℚ) * (Real.pi / (pi : ℚ)) : ℝ) = Real.pi / 2 := by
  rw [quarterTurn_eq, Rat.cast_div, div_mul_eq_mul_div, cast_pi_mul, Rat.cast_ofNat]

theorem exactSine_quarterTurn : exactSine quarterTurn = 1 := by
  rw [exactSine, cast_quarterTurn_mul, Real.sin_pi_div_two]

theorem exactSine_remainder (angle : ℚ) : exactSine (remainder angle) = exactSine angle := by
  obtain ⟨turns, left⟩ := exists_remainder_eq angle
  have scaled : ((turns * fullTurn : ℚ) * (Real.pi / (pi : ℚ)) : ℝ) = turns * (2 * Real.pi) := by
    rw [fullTurn_eq]
    push_cast
    rw [mul_assoc, mul_assoc, cast_pi_mul]
  rw [exactSine, left, Rat.cast_sub, sub_mul, scaled, Real.sin_sub_int_mul_two_pi, exactSine]

theorem sineTerm_eq (angle : ℚ) (i : ℕ) :
    sineTerm angle i = (-1) ^ i * angle ^ (2 * i + 1) / factorial (2 * i + 1) := by
  change (-((1 : ℕ) : ℚ)) ^ i * angle ^ (2 * i + 1) / factorial (2 * i + 1) = _
  rw [Nat.cast_one]

theorem sineSeries_eq (angle : ℚ) : sineSeries angle =
    angle - angle ^ 3 / 6 + angle ^ 5 / 120 - angle ^ 7 / 5040 + angle ^ 9 / 362880 := by
  change angle + sineTerm angle 1 + sineTerm angle 2 + sineTerm angle 3 + sineTerm angle 4 = _
  simp only [sineTerm_eq, factorial]
  push_cast
  ring

theorem sineSeries_zero : sineSeries (0 : ℚ) = 0 := by
  rw [sineSeries_eq]
  norm_num

theorem quarterTurn_le : (quarterTurn : ℚ) ≤ 15708 / 10000 := by
  change (884279719003555 / 281474976710656 / (2 : ℕ) : ℚ) ≤ _
  norm_num

/-- The constant is as near to `π` as a double is. -/
theorem abs_pi_ratio_sub_one_le : |Real.pi / (pi : ℚ) - 1| ≤ 1 / 10 ^ 15 := by
  have low := Real.pi_gt_d20
  have high := Real.pi_lt_d20
  have constant : ((pi : ℚ) : ℝ) = 884279719003555 / 281474976710656 := by
    change ((884279719003555 / 281474976710656 : ℚ) : ℝ) = _
    push_cast
    rfl
  rw [constant, abs_le, le_sub_iff_add_le, sub_le_iff_le_add, le_div_iff₀ (by norm_num),
    div_le_iff₀ (by norm_num)]
  constructor <;> linarith

/-- What the series and the constant are off by. -/
noncomputable def seriesError : ℝ := 8 / 10 ^ 6

theorem abs_sineSeries_sub_le (low : 0 ≤ angle) (high : angle ≤ quarterTurn) :
    |(sineSeries angle : ℚ) - exactSine angle| ≤ seriesError := by
  have nonneg : (0 : ℝ) ≤ angle := mod_cast low
  have small : (angle : ℝ) ≤ 15708 / 10000 := by
    calc (angle : ℝ) ≤ (15708 / 10000 : ℚ) := Rat.cast_le.mpr (high.trans quarterTurn_le)
      _ = 15708 / 10000 := by norm_num
  have magnitude : |(angle : ℝ)| = angle := abs_of_nonneg nonneg
  have series : |((sineSeries angle : ℚ) : ℝ) - Real.sin angle| ≤ 75 / 10 ^ 7 := by
    rw [abs_sub_comm, sineSeries_eq]
    push_cast
    calc _ ≤ |(angle : ℝ)| ^ 11 / 19958400 := abs_sin_sub_series_le (by rw [magnitude]; linarith)
      _ ≤ (15708 / 10000) ^ 11 / 19958400 := by
        rw [magnitude]
        gcongr
      _ ≤ 75 / 10 ^ 7 := by norm_num
  have constant : |Real.sin angle - exactSine angle| ≤ 2 / 10 ^ 15 := by
    calc |Real.sin angle - exactSine angle|
        ≤ |(angle : ℝ) - angle * (Real.pi / (pi : ℚ))| := Real.abs_sin_sub_sin_le _ _
      _ = angle * |Real.pi / (pi : ℚ) - 1| := by
        rw [← mul_one_sub, abs_mul, magnitude, abs_sub_comm]
      _ ≤ 2 * (1 / 10 ^ 15) := by
        gcongr
        · linarith
        · exact abs_pi_ratio_sub_one_le
      _ = 2 / 10 ^ 15 := by norm_num
  calc |((sineSeries angle : ℚ) : ℝ) - exactSine angle|
      ≤ 75 / 10 ^ 7 + 2 / 10 ^ 15 := (abs_sub_le _ _ _).trans (add_le_add series constant)
    _ ≤ seriesError := by
      rw [seriesError]
      norm_num

theorem abs_exactSine_le (angle : ℚ) : |exactSine angle| ≤ 1 := Real.abs_sin_le_one _

/-- A factor that is not quite one. -/
theorem abs_mul_sub_le {a b value error : ℝ} (near : |a - value| ≤ error) (small : error ≤ 1)
    (le : |value| ≤ 1) (unit : |b - 1| ≤ seriesError) :
    |a * b - value| ≤ error + 2 * seriesError := by
  have magnitude : |a| ≤ 2 := by
    have := abs_sub_abs_le_abs_sub a value
    linarith
  calc |a * b - value| = |(a - value) + a * (b - 1)| := by ring_nf
    _ ≤ |a - value| + |a| * |b - 1| := (abs_add_le _ _).trans_eq (by rw [abs_mul])
    _ ≤ error + 2 * seriesError := by gcongr

/-- The computed sine of an angle, with what it may be off by after a number of calls. -/
def SineNear (n : ℕ) (angle s : ℚ) : Prop :=
  (∀ reductions, n < reductions → sineWithin reductions angle = .ok s) ∧
    |(s : ℝ) - exactSine angle| ≤ (2 * n + 1) * seriesError

theorem sineNear_of_first (low : 0 ≤ angle) (high : angle ≤ quarterTurn) :
    SineNear n angle (sineSeries angle) := by
  refine ⟨fun reductions some => ?_, (abs_sineSeries_sub_le low high).trans ?_⟩
  · obtain ⟨reductions, rfl⟩ := Nat.exists_eq_succ_of_ne_zero (Nat.ne_zero_of_lt some)
    exact (step_of_first low high).2 reductions
  · rw [seriesError]
    have : (0 : ℝ) ≤ n := n.cast_nonneg
    linarith

/-- A call whose answer is kept, or its sign changed. -/
theorem SineNear.succ {called s t : ℚ} (near : SineNear n called s)
    (step : ∀ n, sineWithin n called = .ok s → sineWithin (n + 1) angle = .ok t)
    (same : |(t : ℝ) - exactSine angle| = |(s : ℝ) - exactSine called|) :
    SineNear (n + 1) angle t := by
  obtain ⟨answer, error⟩ := near
  refine ⟨fun reductions some => ?_, ?_⟩
  · obtain ⟨reductions, rfl⟩ := Nat.exists_eq_succ_of_ne_zero (Nat.ne_zero_of_lt some)
    exact step reductions (answer reductions (Nat.lt_of_succ_lt_succ some))
  · rw [same]
    refine error.trans ?_
    rw [seriesError]
    push_cast
    linarith

/-- A sum, where only the angle that is left to half a turn counts. -/
theorem SineNear.of_half {s t : ℚ} (outside : angle < -quarterTurn ∨ quarterTurn < angle)
    (low : -pi ≤ angle) (high : angle ≤ pi) (few : n ≤ 7)
    (first : SineNear n (angle - quarterTurn) s) (complement : SineNear n (pi - angle) t) :
    SineNear (n + 1) angle (t * sineSeries quarterTurn) := by
  have quarter_nonneg : (0 : ℚ) ≤ quarterTurn := by
    rw [quarterTurn_eq]
    exact (half_pos pi_pos).le
  have zero : SineNear n 0 (sineSeries 0) := sineNear_of_first le_rfl quarter_nonneg
  have quarter : SineNear n quarterTurn (sineSeries quarterTurn) :=
    sineNear_of_first quarter_nonneg le_rfl
  refine ⟨fun reductions some => ?_, ?_⟩
  · obtain ⟨reductions, rfl⟩ := Nat.exists_eq_succ_of_ne_zero (Nat.ne_zero_of_lt some)
    have some := Nat.lt_of_succ_lt_succ some
    rw [(step_of_half outside low high).2, first.1 _ some, zero.1 _ some, complement.1 _ some,
      quarter.1 _ some, sineSeries_zero]
    change Except.ok (s * 0 + t * sineSeries quarterTurn) = _
    rw [mul_zero, zero_add]
  · have near := complement.2
    have unit := abs_sineSeries_sub_le quarter_nonneg le_rfl
    have few : (n : ℝ) ≤ 7 := mod_cast few
    have small : (2 * n + 1) * seriesError ≤ 1 := by
      rw [seriesError]
      linarith
    rw [exactSine_pi_sub] at near
    rw [exactSine_quarterTurn] at unit
    rw [Rat.cast_mul]
    refine (abs_mul_sub_le near small (abs_exactSine_le angle) unit).trans_eq ?_
    push_cast
    ring

/-- The sine differs from that of analysis by an error for each call of a chain. -/
theorem exists_sineNear (le : n ≤ 7) (ends : CallsEnd n angle) : ∃ s, SineNear n angle s := by
  induction n generalizing angle with
  | zero =>
      obtain ⟨low, high⟩ := calledAngles_eq_nil_iff.mp ends
      exact ⟨_, sineNear_of_first low high⟩
  | succ n ih =>
      have ih {called : ℚ} (mem : called ∈ calledAngles angle) : ∃ s, SineNear n called s :=
        ih (Nat.le_of_succ_le le) (ends called mem)
      rcases region_cases angle with ⟨low, high⟩ | ⟨low, high⟩ | ⟨outside, low, high⟩ |
        ⟨outside, low, high⟩ | outside
      · exact ⟨_, sineNear_of_first low high⟩
      · obtain ⟨called, step⟩ := step_of_negative low high
        obtain ⟨s, near⟩ := ih (called ▸ List.mem_singleton_self _)
        refine ⟨-s, near.succ (fun n answer => ?_) ?_⟩
        · rw [step, answer]
          rfl
        · rw [exactSine_neg, Rat.cast_neg, ← abs_neg]
          ring_nf
      · have called := (step_of_half outside low high).1
        obtain ⟨s, first⟩ := ih (called ▸ List.mem_cons_self)
        obtain ⟨t, complement⟩ : ∃ t, SineNear n (pi - angle) t := ih (by simp [called])
        exact ⟨_, .of_half outside low high (Nat.le_of_succ_le le) first complement⟩
      · obtain ⟨called, step⟩ := step_of_full outside low high
        obtain ⟨s, near⟩ := ih (called ▸ List.mem_singleton_self _)
        refine ⟨-s, near.succ (fun n answer => ?_) ?_⟩
        · rw [step, answer]
          rfl
        · rw [exactSine_sub_pi, Rat.cast_neg, ← abs_neg]
          ring_nf
      · obtain ⟨called, step⟩ := step_of_turns outside
        obtain ⟨s, near⟩ := ih (called ▸ List.mem_singleton_self _)
        refine ⟨s, near.succ (fun n answer => ?_) ?_⟩
        · rw [step, answer]
        · rw [exactSine_remainder]

theorem exists_sineNear_seven (angle : ℚ) : ∃ s, SineNear 7 angle s :=
  exists_sineNear le_rfl (callsEnd angle)

theorem SineNear.abs_le {s : ℚ} (near : SineNear 7 angle s) : |s| ≤ 101 / 100 := by
  have error := near.2
  have unit := abs_exactSine_le angle
  have magnitude := abs_sub_abs_le_abs_sub (s : ℝ) (exactSine angle)
  rw [seriesError] at error
  push_cast at error
  rw [← Rat.cast_le (K := ℝ), Rat.cast_abs]
  norm_num
  linarith

/-- With exact rational numbers the sine and the cosine of every angle have a value of magnitude at most
one, but for a hundredth. No chain of calls is longer than seven, each ends in the first quadrant, and
so eight reductions are enough for any angle. -/
theorem angleSine_terminates_bounded (angle : ℚ) :
    CallsEnd 7 angle ∧ CallsEnd 7 (quarterTurn - angle) ∧
    ∃ s c, (∀ reductions, 8 ≤ reductions → sineWithin reductions angle = .ok s ∧
        sineWithin reductions (quarterTurn - angle) = .ok c) ∧
      angleSine angle = .ok s ∧ angleCosine angle = .ok c ∧
      |s| ≤ 101 / 100 ∧ |c| ≤ 101 / 100 := by
  obtain ⟨s, sine⟩ := exists_sineNear_seven angle
  obtain ⟨c, cosine⟩ := exists_sineNear_seven (quarterTurn - angle)
  have enough : 7 < reductionLimit := by decide
  exact ⟨callsEnd _, callsEnd _, s, c, fun reductions some => ⟨sine.1 _ some, cosine.1 _ some⟩,
    sine.1 _ enough, cosine.1 _ enough, sine.abs_le, cosine.abs_le⟩

end SeriesCalculator.Series
