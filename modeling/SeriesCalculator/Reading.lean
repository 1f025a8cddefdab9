import SeriesCalculator.Environment.Basic
import SeriesCalculator.Expr.Printer
import SeriesCalculator.Expr.ReversePolish
import SeriesCalculator.Token.Product
import SeriesCalculator.Token.ReversePolish
import SeriesCalculator.Token.Segmentation

/-!
# Reading a text

A text is read against an environment, which says what names there are and which of them are functions:
it is cut into tokens, implied products are put in, the tokens are brought into reverse Polish order, and
that order gives the tree. A reading keeps all four.
-/

namespace SeriesCalculator

/-- What reading goes through. -/
structure Reading where
  tokens : List Token
  /-- The tokens with the implied products. -/
  products : List Token
  /-- The tokens in reverse Polish order. -/
  polish : List Token
  tree : Expr
  deriving DecidableEq

namespace Environment

/-- The tokens of a text, with the longest name first wherever several fit. -/
def tokenize (env : Environment) (text : List Char) : List Token :=
  Token.ofChars env.knownNames text

/-- Puts implied products into a list of tokens. -/
def withProducts (env : Environment) (tokens : List Token) : List Token :=
  Token.withProducts env.functions.contains tokens

/-- Brings tokens into reverse Polish order. -/
def reversePolish (env : Environment) (tokens : List Token) : Except ExpressionFault (List Token) :=
  Token.reversePolish env.functions.rank? tokens

/-- The tree of tokens in reverse Polish order. -/
def treeOf (env : Environment) (polish : List Token) : Except ExpressionFault Expr :=
  Expr.ofReversePolish env.functions.contains polish

/-- Reads a list of tokens. -/
def readTokens (env : Environment) (tokens : List Token) : Except ExpressionFault Reading := do
  let products := env.withProducts tokens
  let polish ← env.reversePolish products
  let tree ← env.treeOf polish
  return { tokens, products, polish, tree }

/-- Reads a text. Blanks at its ends do not count, and something must be left without them. -/
def read (env : Environment) (text : String) : Except ExpressionFault Reading :=
  let inner := Text.trim text.toList
  if inner.isEmpty then .error .emptyInput else env.readTokens (env.tokenize inner)

end Environment

end SeriesCalculator
