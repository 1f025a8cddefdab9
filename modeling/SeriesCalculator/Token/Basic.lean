import SeriesCalculator.Decimal.Text
import SeriesCalculator.Operator

/-!
# Tokens

A token is a number, a name, an operator or a parenthesis. Whether a name stands for a variable or for
a function is not part of the token. A list of tokens is written with one space between neighbours.
-/

namespace SeriesCalculator

/-- The smallest part of an expression that has a meaning. -/
inductive Token
  | number (value : Float)
  | name (name : String)
  | operator (op : Operator)
  | opening
  | closing
  deriving DecidableEq

namespace Token

/-- The written form of a token. -/
def text : Token → String
  | number value => Decimal.text value
  | name n => n
  | operator op => op.symbol.toString
  | opening => "("
  | closing => ")"

/-- The written form of a list of tokens. -/
def listText (tokens : List Token) : String :=
  String.intercalate " " (tokens.map text)

/-- The token that a single character stands for. -/
def ofSymbol? : Char → Option Token
  | '(' => some opening
  | ')' => some closing
  | c => (Operator.ofSymbol? c).map operator

end Token

end SeriesCalculator
