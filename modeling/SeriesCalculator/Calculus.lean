import SeriesCalculator.Evaluation

/-!
# Difference quotients and integrals

The derivative of a text in one variable is a forward difference quotient with a fixed step. Its
integral is the composite formula of Simpson with a fixed even number of intervals. Both evaluate the
text at sample points, with the variable bound to each of them in turn. The formula itself asks for
nothing but samples, in any type of scalars.
-/

namespace SeriesCalculator

/-- The value of a text with a variable bound to `x`. -/
def sample (text variableName : String) (x : Float) : Calculation Float :=
  ExceptT.mk (Environment.withBinding variableName x (evaluate text).run)

/-- The difference quotient of a text at a point. -/
def derivativeWith (text variableName : String) (point step : Float) : Calculation Float := do
  if step == 0.0 || !step.isFinite then throw (.domain (.stepInvalid step))
  else
    let here ← sample text variableName point
    let beyond ← sample text variableName (point + step)
    return (beyond - here) / step

/-- The difference quotient with the step of the settings. -/
def derivative (text variableName : String) (point : Float) : Calculation Float := do
  derivativeWith text variableName point (← get).settings.step

section Simpson

variable {α : Type} [Scalar α] {m : Type → Type} [Monad m]

/-- Adds `weight * f (a + i * h)` to `sum` for `count` values of `i`: the given one and every other one
after it. -/
@[specialize] def addSamples (f : α → m α) (a h : α) (weight : Nat) : (count i : Nat) → (sum : α) → m α
  | 0, _, sum => pure sum
  | count + 1, i, sum => do
    let y ← f (a + Scalar.ofNat i * h)
    addSamples f a h weight count (i + 2) (sum + Scalar.ofNat weight * y)

/-- The formula of Simpson for an even number of intervals: `h / 3` times the sum of the samples with
weights one at the ends, four at the odd points and two at the even points between. The ends are sampled
first, then the odd points, then the even ones. -/
@[specialize] def simpson (f : α → m α) (a b : α) (intervals : Nat) : m α := do
  let h := (b - a) / Scalar.ofNat intervals
  let first ← f a
  let last ← f b
  let odd ← addSamples f a h 4 (intervals / 2) 1 (first + last)
  let sum ← addSamples f a h 2 (intervals / 2 - 1) 2 odd
  pure (sum * h / Scalar.ofNat 3)

end Simpson

/-- The integral of a text from `a` to `b`. -/
def integralWith (text variableName : String) (a b : Float) (intervals : Nat) :
    Calculation Float :=
  if intervals < 2 then throw (.domain (.tooFewIntervals intervals))
  else if intervals % 2 = 1 then throw (.domain (.oddIntervals intervals))
  else simpson (sample text variableName) a b intervals

/-- The integral with the number of intervals of the settings. -/
def integral (text variableName : String) (a b : Float) : Calculation Float := do
  integralWith text variableName a b (← get).settings.intervals

end SeriesCalculator
