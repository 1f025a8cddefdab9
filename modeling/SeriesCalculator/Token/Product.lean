import SeriesCalculator.Token.Basic

/-!
# Implied products

Two neighbours are multiplied without a sign when the left one ends a value (a number, a variable or a
closing parenthesis) and the right one is a variable or an opening parenthesis. A function never takes
part, so its argument is not multiplied.
-/

namespace SeriesCalculator.Token

/-- Tells whether a token is a name that is no function. -/
def isVariable (isFunction : String → Bool) : Token → Bool
  | name n => !isFunction n
  | _ => false

/-- Tells whether a value can end with a token, and a product be implied after it. -/
def endsFactor (isFunction : String → Bool) : Token → Bool
  | number _ | closing => true
  | t => t.isVariable isFunction

/-- Tells whether a product can be implied before a token. -/
def startsFactor (isFunction : String → Bool) : Token → Bool
  | opening => true
  | t => t.isVariable isFunction

/-- Puts a token in front of a list, with a product sign between them if one is implied. -/
def consFactor (isFunction : String → Bool) (t : Token) : List Token → List Token
  | [] => [t]
  | next :: rest =>
    if t.endsFactor isFunction && next.startsFactor isFunction then
      t :: operator .multiply :: next :: rest
    else t :: next :: rest

/-- A list of tokens with all implied product signs. -/
def withProducts (isFunction : String → Bool) (tokens : List Token) : List Token :=
  tokens.foldr (consFactor isFunction) []

end SeriesCalculator.Token
