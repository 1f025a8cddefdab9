import SeriesCalculator.Scalar
import SeriesCalculator.Series.Basic

/-!
# The sine

On the first quadrant the sine is five terms of its series. Every other angle is brought there: a small
negative one by oddness, the rest of the half turn on either side by the addition theorem with a quarter
turn, the rest of the full turn by half a turn, and all others by the whole number of turns. The way may
lead outward before it leads inward, so the reductions are counted; no angle needs many.
-/

namespace SeriesCalculator.Series

open Scalar

/-- Why the sine of an angle has no value. -/
inductive AngleFault (α : Type)
  /-- The angle is infinite or not a number. -/
  | notFinite (angle : α)
  /-- The angle is still outside the first quadrant after the allowed number of reductions. -/
  | notReduced (angle : α)
  deriving DecidableEq

variable {α : Type} [Scalar α]

/-- The term `(-1) ^ i * angle ^ (2 * i + 1) / (2 * i + 1)!`. -/
def sineTerm (angle : α) (i : Nat) : α :=
  Scalar.power (-ofNat 1) i * Scalar.power angle (2 * i + 1) / ofNat (factorial (2 * i + 1))

/-- The series of the sine up to the ninth power. -/
def sineSeries (angle : α) : α :=
  [1, 2, 3, 4].foldl (fun sum i => sum + sineTerm angle i) angle

/-- The sine of an angle that takes at most the given number of reductions. -/
def sineWithin : Nat → α → Except (AngleFault α) α
  | 0, angle => .error (.notReduced angle)
  | reductions + 1, angle =>
    if !isFinite angle then .error (.notFinite angle)
    else if ofNat 0 ≤ angle ∧ angle ≤ quarterTurn then .ok (sineSeries angle)
    else if -quarterTurn ≤ angle ∧ angle ≤ ofNat 0 then return -(← sineWithin reductions (-angle))
    else if -pi ≤ angle ∧ angle ≤ pi then do
      let first := angle - quarterTurn
      let second := angle - first
      let sineFirst ← sineWithin reductions first
      let cosineSecond ← sineWithin reductions (quarterTurn - second)
      let cosineFirst ← sineWithin reductions (quarterTurn - first)
      let sineSecond ← sineWithin reductions second
      return sineFirst * cosineSecond + cosineFirst * sineSecond
    else if -fullTurn ≤ angle ∧ angle ≤ fullTurn then return -(← sineWithin reductions (angle - pi))
    else sineWithin reductions (angle - fullTurn * truncate (angle / fullTurn))

/-- The number of reductions that are allowed. Each division by the full turn takes fifty bits off a
double's exponent, and from within a full turn four reductions follow at most. -/
def reductionLimit : Nat := 64

/-- The sine of an angle. -/
def angleSine (angle : α) : Except (AngleFault α) α :=
  sineWithin reductionLimit angle

/-- The cosine is the sine of the complement. -/
def angleCosine (angle : α) : Except (AngleFault α) α :=
  angleSine (quarterTurn - angle)

end SeriesCalculator.Series
