import SeriesCalculator.Proofs.Except
import SeriesCalculator.Series.Sine
import Mathlib

/-!
# The calls of the sine

Read with exact rational numbers, the sine of an angle outside the first quadrant is computed from the
sines of other angles (`calledAngles`), and some of these are farther away: a negative angle beyond a
quarter turn is brought below minus a full turn before the whole turns are taken off. But every chain
of calls ends in the first quadrant (`callsEnd`): the angles that are called come to lie in regions
whose chains are shorter, and after at most seven calls there is nothing left to reduce. With one more
reduction than that allowed the sine has a value (`exists_sineWithin_eq_ok_iff`).
-/

namespace SeriesCalculator.Series

open Scalar

variable {angle : ℚ} {n : ℕ}

theorem pi_pos : (0 : ℚ) < pi := by
  change (0 : ℚ) < 884279719003555 / 281474976710656
  norm_num

theorem quarterTurn_eq : (quarterTurn : ℚ) = pi / 2 := rfl

theorem fullTurn_eq : (fullTurn : ℚ) = 2 * pi := rfl

theorem sineWithin_succ (n : ℕ) (angle : ℚ) : sineWithin (n + 1) angle =
    if 0 ≤ angle ∧ angle ≤ quarterTurn then .ok (sineSeries angle)
    else if -quarterTurn ≤ angle ∧ angle ≤ 0 then do return -(← sineWithin n (-angle))
    else if -pi ≤ angle ∧ angle ≤ pi then do
      let sineFirst ← sineWithin n (angle - quarterTurn)
      let cosineSecond ← sineWithin n (quarterTurn - (angle - (angle - quarterTurn)))
      let cosineFirst ← sineWithin n (quarterTurn - (angle - quarterTurn))
      let sineSecond ← sineWithin n (angle - (angle - quarterTurn))
      return sineFirst * cosineSecond + cosineFirst * sineSecond
    else if -fullTurn ≤ angle ∧ angle ≤ fullTurn then do return -(← sineWithin n (angle - pi))
    else sineWithin n (angle - fullTurn * truncate (angle / fullTurn)) := by
  have finite : isFinite angle = true := rfl
  rw [sineWithin, finite, Bool.not_true, if_neg Bool.false_ne_true]
  congr 1

/-- The angles whose sines the sine of an angle is computed from. -/
def calledAngles (angle : ℚ) : List ℚ :=
  if 0 ≤ angle ∧ angle ≤ quarterTurn then []
  else if -quarterTurn ≤ angle ∧ angle ≤ 0 then [-angle]
  else if -pi ≤ angle ∧ angle ≤ pi then
    [angle - quarterTurn, quarterTurn - (angle - (angle - quarterTurn)),
      quarterTurn - (angle - quarterTurn), angle - (angle - quarterTurn)]
  else if -fullTurn ≤ angle ∧ angle ≤ fullTurn then [angle - pi]
  else [angle - fullTurn * truncate (angle / fullTurn)]

/-- No chain of calls from an angle is longer than this. -/
def CallsEnd : ℕ → ℚ → Prop
  | 0, angle => calledAngles angle = []
  | n + 1, angle => ∀ called ∈ calledAngles angle, CallsEnd n called

theorem calledAngles_eq_nil_iff : calledAngles angle = [] ↔ 0 ≤ angle ∧ angle ≤ quarterTurn := by
  rw [calledAngles]
  split_ifs <;> simp_all

/-- A step has a value just if all angles that are called have one. -/
theorem exists_sineWithin_succ_iff : (∃ s, sineWithin (n + 1) angle = .ok s) ↔
    ∀ called ∈ calledAngles angle, ∃ s, sineWithin n called = .ok s := by
  rw [sineWithin_succ, calledAngles]
  split_ifs <;> simp [exists_bind_eq_ok_iff, pure, Except.pure]

/-- The sine has a value just if one more reduction is allowed than a chain of calls needs. -/
theorem exists_sineWithin_eq_ok_iff :
    (∃ s, sineWithin (n + 1) angle = .ok s) ↔ CallsEnd n angle := by
  induction n generalizing angle with
  | zero =>
      rw [exists_sineWithin_succ_iff, CallsEnd, List.eq_nil_iff_forall_not_mem]
      simp [sineWithin]
  | succ n ih =>
      rw [exists_sineWithin_succ_iff, CallsEnd]
      exact forall₂_congr fun called _ => ih

theorem CallsEnd.succ (h : CallsEnd n angle) : CallsEnd (n + 1) angle := by
  induction n generalizing angle with
  | zero =>
      rw [CallsEnd] at h
      simp [CallsEnd, h]
  | succ n ih => exact fun called mem => ih (h called mem)

theorem CallsEnd.mono {m : ℕ} (h : CallsEnd n angle) (le : n ≤ m) : CallsEnd m angle := by
  induction le with
  | refl => exact h
  | step _ ih => exact ih.succ

theorem truncate_of_nonneg {x : ℚ} (nonneg : 0 ≤ x) : truncate x = (⌊x⌋ : ℚ) := by
  change ((x.num.tdiv x.den : ℤ) : ℚ) = _
  rw [Int.tdiv_eq_ediv_of_nonneg (Rat.num_nonneg.mpr nonneg), Rat.floor_def']

theorem truncate_of_nonpos {x : ℚ} (nonpos : x ≤ 0) : truncate x = (⌈x⌉ : ℚ) := by
  have opposite : 0 ≤ -x.num := neg_nonneg.mpr (Rat.num_nonpos.mpr nonpos)
  change ((x.num.tdiv x.den : ℤ) : ℚ) = _
  rw [← neg_neg x.num, Int.neg_tdiv, Int.tdiv_eq_ediv_of_nonneg opposite, Rat.ceil_def']

/-- What is left of an angle when the whole turns are taken off. -/
def remainder (angle : ℚ) : ℚ := angle - fullTurn * truncate (angle / fullTurn)

theorem exists_remainder_eq (angle : ℚ) : ∃ turns : ℤ, remainder angle = angle - turns * fullTurn :=
  ⟨(angle / fullTurn).num.tdiv (angle / fullTurn).den, congrArg (angle - ·) (mul_comm _ _)⟩

theorem fullTurn_pos : (0 : ℚ) < fullTurn := by
  rw [fullTurn_eq]
  exact mul_pos two_pos pi_pos

theorem remainder_of_nonneg (nonneg : 0 ≤ angle) :
    0 ≤ remainder angle ∧ remainder angle < fullTurn := by
  rw [remainder, truncate_of_nonneg (div_nonneg nonneg fullTurn_pos.le), mul_comm]
  exact ⟨Int.sub_floor_div_mul_nonneg _ fullTurn_pos, Int.sub_floor_div_mul_lt _ fullTurn_pos⟩

theorem remainder_of_nonpos (nonpos : angle ≤ 0) :
    -fullTurn < remainder angle ∧ remainder angle ≤ 0 := by
  have opposite : remainder angle = -remainder (-angle) := by
    rw [remainder, remainder, truncate_of_nonpos (div_nonpos_of_nonpos_of_nonneg nonpos
      fullTurn_pos.le), neg_div, truncate_of_nonneg (neg_nonneg.mpr
      (div_nonpos_of_nonpos_of_nonneg nonpos fullTurn_pos.le)), Int.floor_neg]
    push_cast
    ring
  obtain ⟨low, high⟩ := remainder_of_nonneg (neg_nonneg.mpr nonpos)
  rw [opposite]
  constructor <;> linarith

/-- A single turn that is taken off. -/
theorem remainder_of_one_turn (low : -2 * fullTurn < angle) (high : angle ≤ -fullTurn) :
    remainder angle = angle + fullTurn := by
  have pos := fullTurn_pos
  have nonpos : angle / fullTurn ≤ 0 := div_nonpos_of_nonpos_of_nonneg (by linarith) pos.le
  have single : ⌈angle / fullTurn⌉ = -1 := by
    rw [Int.ceil_eq_iff, lt_div_iff₀ pos, div_le_iff₀ pos]
    push_cast
    constructor <;> linarith
  rw [remainder, truncate_of_nonpos nonpos, single]
  push_cast
  ring

theorem step_of_first (low : 0 ≤ angle) (high : angle ≤ quarterTurn) :
    calledAngles angle = [] ∧ ∀ n, sineWithin (n + 1) angle = .ok (sineSeries angle) := by
  refine ⟨?_, fun n => ?_⟩
  · rw [calledAngles, if_pos ⟨low, high⟩]
  · rw [sineWithin_succ, if_pos ⟨low, high⟩]

theorem step_of_negative (low : -quarterTurn ≤ angle) (high : angle < 0) :
    calledAngles angle = [-angle] ∧
      ∀ n, sineWithin (n + 1) angle = (do return -(← sineWithin n (-angle))) := by
  have notFirst : ¬ (0 ≤ angle ∧ angle ≤ quarterTurn) := fun first => high.not_ge first.1
  refine ⟨?_, fun n => ?_⟩
  · rw [calledAngles, if_neg notFirst, if_pos ⟨low, high.le⟩]
  · rw [sineWithin_succ, if_neg notFirst, if_pos ⟨low, high.le⟩]

theorem not_first_of_outside (outside : angle < -quarterTurn ∨ quarterTurn < angle) :
    ¬ (0 ≤ angle ∧ angle ≤ quarterTurn) ∧ ¬ (-quarterTurn ≤ angle ∧ angle ≤ 0) := by
  have := pi_pos
  rw [quarterTurn_eq] at *
  constructor
  · rintro ⟨_, _⟩
    rcases outside <;> linarith
  · rintro ⟨_, _⟩
    rcases outside <;> linarith

/-- The second angle of the sum is a quarter turn, and its cosine is the sine of zero. -/
theorem step_of_half (outside : angle < -quarterTurn ∨ quarterTurn < angle) (low : -pi ≤ angle)
    (high : angle ≤ pi) :
    calledAngles angle = [angle - quarterTurn, 0, pi - angle, quarterTurn] ∧
      ∀ n, sineWithin (n + 1) angle = (do
        let sineFirst ← sineWithin n (angle - quarterTurn)
        let cosineSecond ← sineWithin n 0
        let cosineFirst ← sineWithin n (pi - angle)
        let sineSecond ← sineWithin n quarterTurn
        return sineFirst * cosineSecond + cosineFirst * sineSecond) := by
  obtain ⟨notFirst, notNegative⟩ := not_first_of_outside outside
  have complement : quarterTurn - (angle - quarterTurn) = pi - angle := by
    rw [quarterTurn_eq]
    ring
  refine ⟨?_, fun n => ?_⟩
  · rw [calledAngles, if_neg notFirst, if_neg notNegative, if_pos ⟨low, high⟩, complement,
      sub_sub_cancel, sub_self]
  · rw [sineWithin_succ, if_neg notFirst, if_neg notNegative, if_pos ⟨low, high⟩, complement,
      sub_sub_cancel, sub_self]

theorem not_half_of_outside (outside : angle < -pi ∨ pi < angle) :
    ¬ (-pi ≤ angle ∧ angle ≤ pi) ∧ (angle < -quarterTurn ∨ quarterTurn < angle) := by
  have := pi_pos
  rw [quarterTurn_eq]
  rcases outside with below | above
  · exact ⟨fun half => below.not_ge half.1, .inl (by linarith)⟩
  · exact ⟨fun half => above.not_ge half.2, .inr (by linarith)⟩

theorem step_of_full (outside : angle < -pi ∨ pi < angle) (low : -fullTurn ≤ angle)
    (high : angle ≤ fullTurn) :
    calledAngles angle = [angle - pi] ∧
      ∀ n, sineWithin (n + 1) angle = (do return -(← sineWithin n (angle - pi))) := by
  obtain ⟨notHalf, farther⟩ := not_half_of_outside outside
  obtain ⟨notFirst, notNegative⟩ := not_first_of_outside farther
  refine ⟨?_, fun n => ?_⟩
  · rw [calledAngles, if_neg notFirst, if_neg notNegative, if_neg notHalf, if_pos ⟨low, high⟩]
  · rw [sineWithin_succ, if_neg notFirst, if_neg notNegative, if_neg notHalf, if_pos ⟨low, high⟩]

theorem not_full_of_outside (outside : angle < -fullTurn ∨ fullTurn < angle) :
    ¬ (-fullTurn ≤ angle ∧ angle ≤ fullTurn) ∧ (angle < -pi ∨ pi < angle) := by
  have := pi_pos
  rw [fullTurn_eq] at *
  rcases outside with below | above
  · exact ⟨fun full => below.not_ge full.1, .inl (by linarith)⟩
  · exact ⟨fun full => above.not_ge full.2, .inr (by linarith)⟩

theorem step_of_turns (outside : angle < -fullTurn ∨ fullTurn < angle) :
    calledAngles angle = [remainder angle] ∧
      ∀ n, sineWithin (n + 1) angle = sineWithin n (remainder angle) := by
  obtain ⟨notFull, far⟩ := not_full_of_outside outside
  obtain ⟨notHalf, farther⟩ := not_half_of_outside far
  obtain ⟨notFirst, notNegative⟩ := not_first_of_outside farther
  refine ⟨?_, fun n => ?_⟩
  · rw [calledAngles, if_neg notFirst, if_neg notNegative, if_neg notHalf, if_neg notFull,
      remainder]
  · rw [sineWithin_succ, if_neg notFirst, if_neg notNegative, if_neg notHalf, if_neg notFull,
      remainder]

theorem region_cases (angle : ℚ) :
    (0 ≤ angle ∧ angle ≤ quarterTurn) ∨ (-quarterTurn ≤ angle ∧ angle < 0) ∨
      ((angle < -quarterTurn ∨ quarterTurn < angle) ∧ -pi ≤ angle ∧ angle ≤ pi) ∨
      ((angle < -pi ∨ pi < angle) ∧ -fullTurn ≤ angle ∧ angle ≤ fullTurn) ∨
      (angle < -fullTurn ∨ fullTurn < angle) := by
  grind

theorem callsEnd_of_first (low : 0 ≤ angle) (high : angle ≤ quarterTurn) : CallsEnd 0 angle :=
  (step_of_first low high).1

theorem CallsEnd.of_calledAngles_eq {called : ℚ} (step : calledAngles angle = [called])
    (h : CallsEnd n called) : CallsEnd (n + 1) angle := by
  rw [CallsEnd, step]
  simpa using h

/-- A sum calls two angles besides zero and a quarter turn. -/
theorem CallsEnd.of_half (outside : angle < -quarterTurn ∨ quarterTurn < angle) (low : -pi ≤ angle)
    (high : angle ≤ pi) (first : CallsEnd n (angle - quarterTurn))
    (complement : CallsEnd n (pi - angle)) : CallsEnd (n + 1) angle := by
  have pos := pi_pos
  have zero : CallsEnd n 0 :=
    (callsEnd_of_first le_rfl (by rw [quarterTurn_eq]; linarith)).mono (Nat.zero_le n)
  have quarter : CallsEnd n quarterTurn :=
    (callsEnd_of_first (by rw [quarterTurn_eq]; linarith) le_rfl).mono (Nat.zero_le n)
  rw [CallsEnd, (step_of_half outside low high).1]
  simp [first, complement, zero, quarter]

theorem callsEnd_of_negative (low : -quarterTurn ≤ angle) (high : angle ≤ 0) :
    CallsEnd 1 angle := by
  have pos := pi_pos
  rw [quarterTurn_eq] at low
  rcases high.eq_or_lt with rfl | negative
  · exact (callsEnd_of_first le_rfl (by rw [quarterTurn_eq]; linarith)).succ
  · refine .of_calledAngles_eq (step_of_negative low negative).1 (callsEnd_of_first ?_ ?_)
    · linarith
    · rw [quarterTurn_eq]
      linarith

theorem callsEnd_of_half (low : 0 ≤ angle) (high : angle ≤ pi) : CallsEnd 1 angle := by
  have pos := pi_pos
  rcases le_or_gt angle quarterTurn with first | second
  · exact (callsEnd_of_first low first).succ
  · refine .of_half (.inr second) (by linarith) high (callsEnd_of_first ?_ ?_)
      (callsEnd_of_first ?_ ?_) <;> rw [quarterTurn_eq] at * <;> linarith

theorem callsEnd_of_full (low : 0 ≤ angle) (high : angle ≤ fullTurn) : CallsEnd 2 angle := by
  have pos := pi_pos
  rcases le_or_gt angle pi with half | second
  · exact (callsEnd_of_half low half).succ
  · refine .of_calledAngles_eq (step_of_full (.inr second) ?_ high).1 (callsEnd_of_half ?_ ?_) <;>
      rw [fullTurn_eq] at * <;> linarith

theorem callsEnd_of_nonneg (low : 0 ≤ angle) : CallsEnd 3 angle := by
  rcases le_or_gt angle fullTurn with full | beyond
  · exact (callsEnd_of_full low full).succ
  · obtain ⟨nonneg, less⟩ := remainder_of_nonneg low
    exact .of_calledAngles_eq (step_of_turns (.inr beyond)).1 (callsEnd_of_full nonneg less.le)

/-- Not far beyond minus a full turn, where the lower half turn is brought first. -/
theorem callsEnd_beyond_full (low : -(5 / 2) * pi ≤ angle) (high : angle < -fullTurn) :
    CallsEnd 2 angle := by
  have pos := pi_pos
  have step := (step_of_turns (.inl high)).1
  rw [fullTurn_eq] at high
  rw [remainder_of_one_turn (by rw [fullTurn_eq]; linarith) (by rw [fullTurn_eq]; linarith)] at step
  refine .of_calledAngles_eq step (callsEnd_of_negative ?_ ?_) <;>
    rw [fullTurn_eq] <;> try rw [quarterTurn_eq]
  · linarith
  · linarith

theorem callsEnd_beyond_half (low : -(3 / 2) * pi ≤ angle) (high : angle < -pi) :
    CallsEnd 3 angle := by
  have pos := pi_pos
  refine .of_calledAngles_eq (step_of_full (.inl high) ?_ ?_).1 (callsEnd_beyond_full ?_ ?_) <;>
    try rw [fullTurn_eq]
  all_goals linarith

theorem callsEnd_of_lower_half (low : -pi ≤ angle) (high : angle ≤ 0) : CallsEnd 4 angle := by
  have pos := pi_pos
  rcases le_or_gt (-quarterTurn) angle with small | outside
  · exact (callsEnd_of_negative small high).mono (by decide)
  · refine .of_half (.inl outside) low (by linarith) (callsEnd_beyond_half ?_ ?_)
      ((callsEnd_of_full ?_ ?_).succ) <;>
      rw [quarterTurn_eq] at * <;> try rw [fullTurn_eq]
    all_goals linarith

theorem callsEnd_beyond_lower_full (low : -(3 * pi) ≤ angle) (high : angle < -fullTurn) :
    CallsEnd 5 angle := by
  have pos := pi_pos
  have step := (step_of_turns (.inl high)).1
  rw [fullTurn_eq] at high
  rw [remainder_of_one_turn (by rw [fullTurn_eq]; linarith) (by rw [fullTurn_eq]; linarith)] at step
  refine .of_calledAngles_eq step (callsEnd_of_lower_half ?_ ?_) <;> rw [fullTurn_eq] <;> linarith

theorem callsEnd_of_lower_full (low : -fullTurn ≤ angle) (high : angle ≤ 0) : CallsEnd 6 angle := by
  have pos := pi_pos
  rcases le_or_gt (-pi) angle with half | outside
  · exact (callsEnd_of_lower_half half high).mono (by decide)
  · refine .of_calledAngles_eq (step_of_full (.inl outside) low ?_).1
      (callsEnd_beyond_lower_full ?_ ?_) <;> rw [fullTurn_eq] at * <;> linarith

/-- At most seven calls lead from any angle to the first quadrant. -/
theorem callsEnd (angle : ℚ) : CallsEnd 7 angle := by
  rcases le_total 0 angle with nonneg | nonpos
  · exact (callsEnd_of_nonneg nonneg).mono (by decide)
  · rcases le_or_gt (-fullTurn) angle with full | beyond
    · exact (callsEnd_of_lower_full full nonpos).succ
    · obtain ⟨less, le⟩ := remainder_of_nonpos nonpos
      exact .of_calledAngles_eq (step_of_turns (.inl beyond)).1 (callsEnd_of_lower_full less.le le)

end SeriesCalculator.Series
