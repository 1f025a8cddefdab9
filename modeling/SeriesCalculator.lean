import SeriesCalculator.Session
import SeriesCalculator.Proofs.Calculus.Simpson
import SeriesCalculator.Proofs.Evaluation.CallLimit
import SeriesCalculator.Proofs.Evaluation.Explanation
import SeriesCalculator.Proofs.Evaluation.Failure
import SeriesCalculator.Proofs.Evaluation.Recursion
import SeriesCalculator.Proofs.Evaluation.Registration
import SeriesCalculator.Proofs.Evaluation.Result
import SeriesCalculator.Proofs.Evaluation.Tasks
import SeriesCalculator.Proofs.Expr.Building
import SeriesCalculator.Proofs.Expr.RoundTrip
import SeriesCalculator.Proofs.Fraction.Accumulator
import SeriesCalculator.Proofs.Fraction.Approximation
import SeriesCalculator.Proofs.Fraction.Order
import SeriesCalculator.Proofs.Fraction.Undefined
import SeriesCalculator.Proofs.Series.Identities
import SeriesCalculator.Proofs.Series.PowerSign
import SeriesCalculator.Proofs.Series.Scaling
import SeriesCalculator.Proofs.Session.Functions
import SeriesCalculator.Proofs.Splicing.Soundness
import SeriesCalculator.Proofs.Token.LongestMatch
import SeriesCalculator.Proofs.Token.Neighbours
import SeriesCalculator.Proofs.Token.Words
import SeriesCalculator.Proofs.Token.Offsets
