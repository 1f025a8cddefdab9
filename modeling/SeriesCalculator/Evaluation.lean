import SeriesCalculator.Expr.Evaluation
import SeriesCalculator.Reading

/-!
# Evaluating a text

A text is read and its tree evaluated. A defined function evaluates its own text in the same way, with
its parameter bound to the argument, as one more call under way. The limit on calls ends the recursion:
the number of calls that may still be made gets smaller with each, and where none is left the call fails
for the same reason as by the count of calls under way.
-/

namespace SeriesCalculator

/-- Evaluates a text, with `apply` for the calls. -/
def evaluateWith (apply : String → Float → Calculation Float) (text : String) :
    Calculation Float := do
  let reading ← ofExcept (((← get).read text).mapError Error.malformed)
  reading.tree.evaluate apply

/-- Applies a function, with at most the given number of calls of defined functions inside each other.
Started with `callsLeft`, it has no calls left just where `withCall` would refuse the call, and it fails
with the same error in its place. So the check of `withCall` always admits a call from here, and
`answer_apply_defined` states the rule by the count of calls under way alone. -/
def applyWithin : Nat → String → Float → Calculation Float
  | calls, name, x => do
    let env ← get
    match env.functions.find? name with
    | none => throw (.malformed (.unknownFunction name))
    | some (.builtin function) => ofExcept ((function.apply env.settings x).mapError Error.domain)
    | some (.defined body parameter) =>
      match calls with
      | 0 => throw (.tooDeep env.settings.callLimit.val)
      | calls + 1 =>
        Environment.withCall <|
          ExceptT.mk (Environment.withBinding parameter x (evaluateWith (applyWithin calls) body).run)

/-- The number of calls that may still be made. -/
def Environment.callsLeft (env : Environment) : Nat :=
  env.settings.callLimit.val - env.depth

/-- Applies the function of a name. -/
def apply (name : String) (x : Float) : Calculation Float := do
  applyWithin (← get).callsLeft name x

/-- Evaluates a tree. -/
def evaluateTree (tree : Expr) : Calculation Float := do
  let calls := (← get).callsLeft
  tree.evaluate (applyWithin calls)

/-- Evaluates a text. -/
def evaluate (text : String) : Calculation Float := do
  let calls := (← get).callsLeft
  evaluateWith (applyWithin calls) text

/-- Evaluates a text and shows how it was read. -/
def explain (text : String) : Calculation (Float × Reading) := do
  let reading ← ofExcept (((← get).read text).mapError Error.malformed)
  return (← evaluateTree reading.tree, reading)

/-- What is known of a text step by step. What comes after the first failing step is missing, and the
result is then its error. -/
structure Stages where
  tokens : List Token
  products : List Token
  polish : Option (List Token)
  tree : Option Expr
  result : Except Error Float

/-- Goes through the steps of reading and evaluating one by one. Blanks at the ends of the text are not
taken off first. -/
def stages (text : String) : StateM Environment Stages := do
  let env ← get
  let tokens := env.tokenize text.toList
  let products := env.withProducts tokens
  match env.reversePolish products with
  | .error fault =>
    return { tokens, products, polish := none, tree := none, result := .error (.malformed fault) }
  | .ok polish =>
    match env.treeOf polish with
    | .error fault =>
      return { tokens, products, polish, tree := none, result := .error (.malformed fault) }
    | .ok tree => return { tokens, products, polish, tree, result := ← (evaluateTree tree).run }

end SeriesCalculator
