import SeriesCalculator.Series.Root

/-!
# Operators

The five binary operators with their signs, their precedence and their values. No two of them bind
equally strongly, and each of them groups from the left. Four of them are those of the machine; a
division by zero gives an infinity or what is not a number. Only the power can fail.
-/

namespace SeriesCalculator

/-- A binary operator. -/
inductive Operator
  | power
  | divide
  | multiply
  | add
  | subtract
  deriving DecidableEq

namespace Operator

/-- The operators from the strongest to the weakest. -/
def all : List Operator := [power, divide, multiply, add, subtract]

/-- The sign of an operator. -/
def symbol : Operator → Char
  | power => '^'
  | divide => '/'
  | multiply => '*'
  | add => '+'
  | subtract => '-'

/-- How strongly an operator binds. A quotient binds more strongly than a product, and a sum more
strongly than a difference. -/
def precedence : Operator → Nat
  | power => 5
  | divide => 4
  | multiply => 3
  | add => 2
  | subtract => 1

/-- The operator with a given sign. -/
def ofSymbol? (c : Char) : Option Operator :=
  all.find? (·.symbol == c)

/-- Every operator is found by its sign. -/
@[simp] theorem ofSymbol?_symbol (op : Operator) : ofSymbol? op.symbol = some op := by
  cases op <;> rfl

/-- The value of an operator at its two operands. -/
def apply : Operator → Float → Float → Except DomainFault Float
  | power, a, b => Series.pow a b
  | divide, a, b => .ok (a / b)
  | multiply, a, b => .ok (a * b)
  | add, a, b => .ok (a + b)
  | subtract, a, b => .ok (a - b)

end Operator

end SeriesCalculator
