import SeriesCalculator.Error
import SeriesCalculator.Expr.Basic
import SeriesCalculator.Token.Basic

/-!
# The tree of tokens in reverse Polish order

The tokens are read with a stack of trees. A number or a variable is put on it, a function takes its
argument from it, and an operator takes its right operand and then its left one. One tree must be left.
-/

namespace SeriesCalculator.Expr

/-- The stack of trees after one more token. -/
def build (isFunction : String → Bool) (stack : List Expr) :
    Token → Except ExpressionFault (List Expr)
  | .number value => .ok (number value :: stack)
  | .name name =>
    if isFunction name then
      match stack with
      | argument :: stack => .ok (call name argument :: stack)
      | [] => .error (.argumentMissing name)
    else .ok («variable» name :: stack)
  | .operator op =>
    match stack with
    | right :: left :: stack => .ok (binary op left right :: stack)
    | _ => .error .operandMissing
  | .opening | .closing => .error .strayParenthesis

/-- The tree of a list of tokens in reverse Polish order. -/
def ofReversePolish (isFunction : String → Bool) (tokens : List Token) :
    Except ExpressionFault Expr := do
  match ← tokens.foldlM (build isFunction) [] with
  | [e] => return e
  | _ => throw .notOneValue

end SeriesCalculator.Expr
