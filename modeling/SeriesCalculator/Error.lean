import SeriesCalculator.Decimal.Text

/-!
# Errors

An error is a value that says what went wrong: an argument outside the domain of a function, a name
that is taken, a text that is no expression, or calls nested too deeply. The wording is French and is
kept apart from the causes, one function for each kind.
-/

namespace SeriesCalculator

/-- The ways in which an argument can lie outside the domain of a numeric function. -/
inductive DomainFault
  /-- A power whose exponent is infinite or not a number. -/
  | exponentNotFinite (exponent : Float)
  /-- A root of index zero. -/
  | rootIndexZero
  /-- A series with no terms. -/
  | tooFewTerms (count : Nat)
  /-- The logarithm of zero, of a negative number or of what is not a number. -/
  | logarithmNotPositive (x : Float)
  /-- The logarithm of infinity. -/
  | logarithmInfinite
  /-- The factorial of a negative number. -/
  | factorialNegative (n : Int)
  /-- The sine of an infinite angle, or of what is not a number. -/
  | angleNotFinite (angle : Float)
  /-- An angle that the reductions to the first quadrant do not bring there. -/
  | angleNotReduced (angle : Float)
  /-- The tangent where the cosine is zero. -/
  | tangentPole (angle : Float)
  /-- The secant where the cosine is zero. -/
  | secantPole (angle : Float)
  /-- The cosecant where the sine is zero. -/
  | cosecantPole (angle : Float)
  /-- The cotangent where the tangent is zero. -/
  | cotangentPole (angle : Float)
  /-- A difference quotient whose step is zero, infinite or not a number. -/
  | stepInvalid (step : Float)
  /-- An integral over fewer than two intervals. -/
  | tooFewIntervals (count : Nat)
  /-- An integral over an odd number of intervals. -/
  | oddIntervals (count : Nat)
  /-- A fault that the user of the library reports in words. -/
  | reported (text : String)
  deriving DecidableEq

namespace DomainFault

/-- The wording of a domain fault. -/
def text : DomainFault → String
  | exponentNotFinite p => "exposant non fini : " ++ Decimal.text p
  | rootIndexZero => "racine d'indice 0"
  | tooFewTerms n => toString n ++ " itération(s) demandée(s), il en faut au moins 1"
  | logarithmNotPositive x => "ln(" ++ Decimal.text x ++ ") : argument <= 0"
  | logarithmInfinite => "ln : argument infini"
  | factorialNegative n => "factorielle de " ++ toString n ++ " (< 0)"
  | angleNotFinite θ => "sin(" ++ Decimal.text θ ++ ") : argument non fini"
  | angleNotReduced θ => "sin(" ++ Decimal.text θ ++ ") : argument non réduit"
  | tangentPole θ => undefinedAt "tan" θ
  | secantPole θ => undefinedAt "sec" θ
  | cosecantPole θ => undefinedAt "cosec" θ
  | cotangentPole θ => undefinedAt "cot" θ
  | stepInvalid δ => "pas de dérivation invalide : " ++ Decimal.text δ
  | tooFewIntervals n => toString n ++ " intervalle(s) : il en faut au moins 2"
  | oddIntervals n => toString n ++ " intervalles : nombre impair"
  | reported text => text
where
  /-- The wording for a function that has no value at an angle. -/
  undefinedAt (function : String) (angle : Float) : String :=
    function ++ "(x) est indéfini pour x = " ++ Decimal.text angle

end DomainFault

/-- The ways in which a text, a token list or a tree can fail to stand for one value. -/
inductive ExpressionFault
  /-- The text holds nothing but blanks. -/
  | emptyInput
  /-- There is no token. -/
  | emptyExpression
  /-- A number follows a value directly. -/
  | adjacentValues
  /-- A name follows a value directly. -/
  | operatorMissingBeforeName (name : String)
  /-- A group follows a value directly. -/
  | operatorMissingBeforeGroup
  /-- A function waits for its argument and meets a function that is not of lower rank. -/
  | numberExpected (function found : String)
  /-- A group closes where a value is due. -/
  | groupWithoutValue
  /-- A group closes that was never opened. -/
  | groupNotOpened
  /-- A group is still open at the end. -/
  | groupNotClosed
  /-- An operator stands where a value is due. -/
  | leftOperandMissing
  /-- The tokens end where a value is due. -/
  | lastOperandMissing
  /-- An operator in reverse Polish order finds fewer than two values. -/
  | operandMissing
  /-- A function in reverse Polish order finds no value. -/
  | argumentMissing (function : String)
  /-- Reverse Polish order has no parentheses. -/
  | strayParenthesis
  /-- The tokens in reverse Polish order do not leave exactly one value. -/
  | notOneValue
  /-- A variable has no binding. -/
  | unboundVariable (name : String)
  /-- A name is called that is no function. -/
  | unknownFunction (name : String)
  /-- Evaluation needs a value and has none. -/
  | noValue
  deriving DecidableEq

namespace ExpressionFault

/-- The wording of an expression fault. -/
def text : ExpressionFault → String
  | emptyInput => "entrée vide"
  | emptyExpression => "expression vide"
  | adjacentValues => "deux valeurs sans opérateur"
  | operatorMissingBeforeName name => "opérateur manquant avant '" ++ name ++ "'"
  | operatorMissingBeforeGroup => "opérateur manquant avant '('"
  | numberExpected function found => "'" ++ function ++ "' attend un nombre, trouvé '" ++ found ++ "'"
  | groupWithoutValue => "parenthèse vide ou opérande manquant"
  | groupNotOpened => "parenthèse fermante sans ouvrante"
  | groupNotClosed => "parenthèses non fermées"
  | leftOperandMissing => "opérateur sans opérande gauche"
  | lastOperandMissing => "opérande manquant en fin d'expression"
  | operandMissing => "opérande manquant"
  | argumentMissing function => "'" ++ function ++ "' sans argument"
  | strayParenthesis => "parenthèse inattendue en RPN"
  | notOneValue => "la réduction ne converge pas vers une seule valeur"
  | unboundVariable name => "variable inconnue '" ++ name ++ "'"
  | unknownFunction name => "fonction inconnue '" ++ name ++ "'"
  | noValue => "pile d'évaluation vide"

end ExpressionFault

/-- What can go wrong in a session. -/
inductive Error
  /-- An argument lies outside a domain. -/
  | domain (fault : DomainFault)
  /-- A function of this name exists already. -/
  | nameTaken (name : String)
  /-- A text, a token list or a tree does not stand for one value. -/
  | malformed (fault : ExpressionFault)
  /-- Calls of defined functions are nested beyond the limit. -/
  | tooDeep (limit : Nat)
  deriving DecidableEq

namespace Error

/-- The message that is shown for an error. -/
def message : Error → String
  | domain fault => "domaine : " ++ fault.text
  | nameTaken name => "'" ++ name ++ "' est déjà défini"
  | malformed fault => "expression invalide : " ++ fault.text
  | tooDeep limit => "profondeur d'appel dépassée (" ++ toString limit ++ ")"

end Error

end SeriesCalculator
