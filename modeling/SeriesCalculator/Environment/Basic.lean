import SeriesCalculator.Bindings
import SeriesCalculator.FunctionTable

/-!
# Environments

An environment holds what an evaluation depends on: the variables, the functions, the settings, and the
number of calls of defined functions that are under way.
-/

namespace SeriesCalculator

/-- What an evaluation depends on. -/
structure Environment where
  bindings : Bindings
  functions : FunctionTable
  settings : Settings
  /-- The number of calls of defined functions under way. -/
  depth : Nat
  deriving DecidableEq

namespace Environment

/-- The environment at the start: Euler's number and `π` are the variables, and the functions are the
built-in ones. -/
def initial (settings : Settings) : Environment where
  bindings := (Bindings.empty.insert "e" Series.euler).insert "pi" Scalar.pi
  functions := .builtins
  settings := settings
  depth := 0

/-- All names that a text may use, longer ones first. Length counts the bytes of the UTF-8 form. Of
names of one length, variables come before functions, in their own orders. -/
def knownNames (env : Environment) : List String :=
  (env.bindings.names ++ env.functions.names).mergeSort
    fun a b => b.utf8ByteSize ≤ a.utf8ByteSize

/-- Gives a variable a value. -/
def setVariable (env : Environment) (name : String) (value : Float) : Environment :=
  { env with bindings := env.bindings.insert name value }

/-- Takes a variable away and shows its value. -/
def removeVariable (env : Environment) (name : String) : Option Float × Environment :=
  (env.bindings.get? name, { env with bindings := env.bindings.erase name })

/-- Enters a function that is defined by a text. The text is not read yet, so it may use names that are
entered later. A name that is that of a function already is refused. -/
def defineFunction (env : Environment) (name body parameter : String) :
    Except Error Environment :=
  if env.functions.contains name then .error (.nameTaken name)
  else .ok { env with functions := env.functions.push name (.defined body parameter) }

end Environment

end SeriesCalculator
