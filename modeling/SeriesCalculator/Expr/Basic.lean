import SeriesCalculator.Operator

/-!
# Expressions

An expression is a number, a variable, the call of a function with one argument, or an operator between
two expressions.
-/

namespace SeriesCalculator

/-- The tree of an expression. -/
inductive Expr
  | number (value : Float)
  | variable (name : String)
  | call (function : String) (argument : Expr)
  | binary (op : Operator) (left right : Expr)
  deriving DecidableEq

namespace Expr

/-- The number of nodes. -/
def size : Expr → Nat
  | number _ => 1
  | «variable» _ => 1
  | call _ argument => argument.size + 1
  | binary _ left right => left.size + right.size + 1

theorem size_pos (e : Expr) : 0 < e.size := by
  cases e <;> simp [size]

end Expr

end SeriesCalculator
