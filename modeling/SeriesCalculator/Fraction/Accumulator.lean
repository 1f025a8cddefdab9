import SeriesCalculator.Fraction.Basic

/-!
# Running calculations with fractions

A running calculation keeps one fraction and works through a list of steps. A step replaces the
fraction by the result of an operation, or compares it with another one and leaves it alone. Every
step is reported.
-/

namespace SeriesCalculator.Fraction

/-- What is done with the fraction kept so far, which stands on the left of each operation. -/
inductive Step
  | add (operand : Fraction)
  | sub (operand : Fraction)
  | mul (operand : Fraction)
  | div (operand : Fraction)
  | neg
  | reciprocal
  | set (value : Fraction)
  | compare (operand : Fraction)

/-- What a step shows: the new fraction, or how the fraction compares. -/
inductive Report
  | value (f : Fraction)
  | comparison (order : Ordering) (equal : Bool)

/-- One step: the fraction kept after it and its report. -/
def Step.run (kept : Fraction) : Step → Fraction × Report
  | .add f => replace (kept + f)
  | .sub f => replace (kept - f)
  | .mul f => replace (kept * f)
  | .div f => replace (kept / f)
  | .neg => replace (-kept)
  | .reciprocal => replace kept.reciprocal
  | .set f => replace f
  | .compare f => (kept, .comparison (Ord.compare kept f) (decide (kept = f)))
where
  /-- A step that keeps and reports a new fraction. -/
  replace (f : Fraction) : Fraction × Report := (f, .value f)

/-- The reports of a list of steps, in order. -/
def reports (kept : Fraction) : List Step → List Report
  | [] => []
  | step :: steps =>
    let (next, report) := step.run kept
    report :: reports next steps

end SeriesCalculator.Fraction
