import SeriesCalculator.Calculus

/-!
# Sessions

A session is a list of commands that are carried out one after the other on one environment. Each has an
answer; an error is an answer too and does not end the session. A command may bind a variable for a list
of inner commands, which may bind others; when they are done the variable gets back what it had, also if
they are reported to have failed.
-/

namespace SeriesCalculator

/-- What a session can be told. -/
inductive Command
  /-- Evaluates a text. -/
  | evaluate (text : String)
  /-- Evaluates a text and shows how it was read. -/
  | explain (text : String)
  /-- Goes through the steps of reading and evaluating one by one. -/
  | stages (text : String)
  /-- Cuts a text into tokens, with the known names or with the given ones in their order. -/
  | tokenize (text : String) (names : Option (List String))
  /-- Puts implied products into a list of tokens. -/
  | withProducts (tokens : List Token)
  /-- Brings tokens into reverse Polish order. -/
  | reversePolish (tokens : List Token)
  /-- Builds and evaluates the tree of tokens in reverse Polish order. -/
  | evaluatePolish (tokens : List Token)
  /-- Applies a function. -/
  | apply (function : String) (x : Float)
  /-- Applies an operator. -/
  | operate (op : Operator) (left right : Float)
  /-- Gives a variable a value. -/
  | setVariable (name : String) (value : Float)
  /-- Takes a variable away. -/
  | removeVariable (name : String)
  /-- Defines a function by a text. -/
  | defineFunction (name body parameter : String)
  /-- Shows what a name stands for. -/
  | describe (name : String)
  /-- Lists the known names. -/
  | knownNames
  /-- Shows the variables and the names of the functions. -/
  | summary
  /-- Takes the difference quotient of a text. -/
  | derivative (text variableName : String) (point : Float) (step : Option Float)
  /-- Integrates a text. -/
  | integral (text variableName : String) (a b : Float) (intervals : Option Nat)
  /-- Changes settings. -/
  | change (wish : SettingsChange)
  /-- Carries out commands with a variable bound, and reports a failure at the end if one is given. -/
  | bind (name : String) (value : Float) (inner : List Command) (failure : Option String)

/-- What a session shows of its environment. -/
structure Summary where
  bindings : List (String × Float)
  functions : List String

/-- What a session shows of a name. -/
structure Description where
  value : Option Float
  isFunction : Bool
  rank : Option Nat

/-- The answers of a session. -/
inductive Answer
  | value (result : Except Error Float)
  | explanation (result : Except Error (Float × Reading))
  | stages (stages : Stages)
  | tokens (tokens : List Token)
  | polish (result : Except Error (List Token))
  | tree (result : Except Error (Expr × Except Error Float))
  | operation (op : Operator) (result : Except Error Float)
  | done (result : Except Error Unit)
  | removed (value : Option Float)
  | description (description : Description)
  | names (names : List String)
  | summary (summary : Summary)
  | settings (settings : Settings)
  | bound (inner : List Answer) (result : Except Error Unit)

namespace Environment

/-- What is shown of an environment. -/
def summary (env : Environment) : Summary where
  bindings := env.bindings.entries
  functions := env.functions.names

/-- What is shown of a name. -/
def describe (env : Environment) (name : String) : Description where
  value := env.bindings.get? name
  isFunction := env.functions.contains name
  rank := env.functions.rank? name

end Environment

namespace Command

/-- Carries out the definition of a function. The environment changes only if the name is free. -/
def define (name body parameter : String) : StateM Environment Answer := do
  match (← get).defineFunction name body parameter with
  | .ok env =>
    set env
    return .done (.ok ())
  | .error error => return .done (.error error)

/-- Builds a tree and, if there is one, evaluates it. -/
def evaluateTokens (tokens : List Token) : StateM Environment Answer := do
  match (← get).treeOf tokens with
  | .ok tree => return .tree (.ok (tree, ← (evaluateTree tree).run))
  | .error fault => return .tree (.error (.malformed fault))

mutual

/-- Carries out a command. -/
def run : Command → StateM Environment Answer
  | evaluate text => return .value (← (SeriesCalculator.evaluate text).run)
  | explain text => return .explanation (← (SeriesCalculator.explain text).run)
  | stages text => return .stages (← SeriesCalculator.stages text)
  | tokenize text none => return .tokens ((← get).tokenize text.toList)
  | tokenize text (some names) => return .tokens (Token.ofChars names text.toList)
  | withProducts tokens => return .tokens ((← get).withProducts tokens)
  | reversePolish tokens =>
    return .polish (((← get).reversePolish tokens).mapError Error.malformed)
  | evaluatePolish tokens => evaluateTokens tokens
  | apply function x => return .value (← (SeriesCalculator.apply function x).run)
  | operate op left right =>
    return .operation op ((op.apply left right).mapError Error.domain)
  | setVariable name value => do
    modify fun env => env.setVariable name value
    return .done (.ok ())
  | removeVariable name => return .removed (← modifyGet fun env => env.removeVariable name)
  | defineFunction name body parameter => define name body parameter
  | describe name => return .description ((← get).describe name)
  | knownNames => return .names (← get).knownNames
  | summary => return .summary (← get).summary
  | derivative text name point none =>
    return .value (← (SeriesCalculator.derivative text name point).run)
  | derivative text name point (some step) =>
    return .value (← (derivativeWith text name point step).run)
  | integral text name a b none => return .value (← (SeriesCalculator.integral text name a b).run)
  | integral text name a b (some n) => return .value (← (integralWith text name a b n).run)
  | change wish => do
    modify fun env => { env with settings := env.settings.update wish }
    return .settings (← get).settings
  | bind name value inner failure => do
    let answers ← Environment.withBinding name value (runAll inner)
    match failure with
    | some text => return .bound answers (.error (.domain (.reported text)))
    | none => return .bound answers (.ok ())

/-- Carries out commands one after the other. -/
def runAll : List Command → StateM Environment (List Answer)
  | [] => return []
  | command :: commands => do
    let answer ← command.run
    return answer :: (← runAll commands)

end

end Command

/-- A whole session from the initial environment: the answers, and what is shown of the environment at
the end. -/
def session (change : SettingsChange) (commands : List Command) : List Answer × Summary :=
  let (answers, env) := (Command.runAll commands).run (.initial (Settings.default.update change))
  (answers, env.summary)

end SeriesCalculator
