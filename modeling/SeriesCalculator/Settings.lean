/-!
# Settings

The fixed lengths and steps of the approximations, and the limit on nested calls. None of them adapts
to the argument. The limit is kept between one and 1024 by its type.
-/

namespace SeriesCalculator

/-- How deeply calls of defined functions may be nested. -/
structure CallLimit where
  val : Nat
  one_le : 1 ≤ val
  le_max : val ≤ 1024
  deriving DecidableEq

namespace CallLimit

/-- The limit nearest to a wish. -/
def clamp (wish : Nat) : CallLimit where
  val := max 1 (min wish 1024)
  one_le := Nat.le_max_left _ _
  le_max := Nat.max_le.mpr ⟨by decide, Nat.min_le_right _ _⟩

/-- A wish within the bounds is granted. -/
theorem clamp_val {wish : Nat} (pos : 1 ≤ wish) (le : wish ≤ 1024) : (clamp wish).val = wish := by
  simp only [clamp]
  omega

end CallLimit

/-- What the user may set. -/
structure Settings where
  /-- The step of the difference quotient. -/
  step : Float
  /-- The number of intervals of an integral. -/
  intervals : Nat
  /-- The length of the logarithm's series. -/
  logarithmTerms : Nat
  /-- The length of the exponential's series. -/
  exponentialTerms : Nat
  /-- The limit on nested calls. -/
  callLimit : CallLimit
  deriving DecidableEq

/-- New values for some of the settings. -/
structure SettingsChange where
  step : Option Float := none
  intervals : Option Nat := none
  logarithmTerms : Option Nat := none
  exponentialTerms : Option Nat := none
  callLimit : Option Nat := none
  deriving DecidableEq

namespace Settings

/-- The settings that hold unless they are changed. -/
def default : Settings where
  step := 1e-5
  intervals := 8
  logarithmTerms := 30
  exponentialTerms := 15
  callLimit := .clamp 64

/-- The settings after a change. A limit on calls is brought into its bounds. -/
def update (s : Settings) (change : SettingsChange) : Settings where
  step := change.step.getD s.step
  intervals := change.intervals.getD s.intervals
  logarithmTerms := change.logarithmTerms.getD s.logarithmTerms
  exponentialTerms := change.exponentialTerms.getD s.exponentialTerms
  callLimit := (change.callLimit.map CallLimit.clamp).getD s.callLimit

end Settings

end SeriesCalculator
