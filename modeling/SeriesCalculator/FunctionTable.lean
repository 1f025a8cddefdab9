import SeriesCalculator.Series.Root
import SeriesCalculator.Series.Trigonometry

/-!
# Functions of one argument

A function is built in or defined by a text with a parameter; the text is read at every call. The table
keeps functions in the order in which they were entered, and the place of a function is its rank. The
first entry of a name is the one that counts.

The built-in functions are the ten that are there from the beginning, and all others are entered as
texts. Functions that a program computes in another way and enters under a name of its own are left
out: no command does so, and there would be nothing to say about their values.
-/

namespace SeriesCalculator

/-- The functions that are there from the beginning. The cosecant has two names. -/
inductive Builtin
  | sin
  | cos
  | tan
  | sec
  | csc
  | cosec
  | cot
  | abs
  | ln
  | exp
  deriving DecidableEq

namespace Builtin

/-- The built-in functions in the order of their ranks. -/
def all : List Builtin := [sin, cos, tan, sec, csc, cosec, cot, abs, ln, exp]

/-- The name of a built-in function. -/
def name : Builtin → String
  | sin => "sin"
  | cos => "cos"
  | tan => "tan"
  | sec => "sec"
  | csc => "csc"
  | cosec => "cosec"
  | cot => "cot"
  | abs => "abs"
  | ln => "ln"
  | exp => "exp"

/-- The value of a built-in function. The settings give the lengths of the two series. -/
def apply (settings : Settings) : Builtin → Float → Except DomainFault Float
  | sin, x => Series.sine x
  | cos, x => Series.cosine x
  | tan, x => Series.tangent x
  | sec, x => Series.secant x
  | csc, x => Series.cosecant x
  | cosec, x => Series.cosecant x
  | cot, x => Series.cotangent x
  | abs, x => .ok (Series.magnitude x)
  | ln, x => Series.logarithm x settings.logarithmTerms
  | exp, x => Series.exponential x settings.exponentialTerms

end Builtin

/-- A function of one argument: one of the ten built-in ones, or a text with its parameter. -/
inductive Function
  | builtin (function : Builtin)
  | defined (body parameter : String)
  deriving DecidableEq

/-- Named functions in the order of their ranks. -/
structure FunctionTable where
  entries : List (String × Function)
  deriving DecidableEq

namespace FunctionTable

/-- The built-in functions. -/
def builtins : FunctionTable where
  entries := Builtin.all.map fun b => (b.name, .builtin b)

/-- The function of a name. -/
def find? (t : FunctionTable) (name : String) : Option Function :=
  t.entries.lookup name

/-- The rank of a name: the number of functions entered before it. -/
def rank? (t : FunctionTable) (name : String) : Option Nat :=
  t.entries.findIdx? (·.1 == name)

/-- Tells whether a name is that of a function. -/
def contains (t : FunctionTable) (name : String) : Bool :=
  (t.find? name).isSome

/-- The names in the order of their ranks. -/
def names (t : FunctionTable) : List String :=
  t.entries.map Prod.fst

/-- Enters a function after all others. -/
def push (t : FunctionTable) (name : String) (function : Function) : FunctionTable where
  entries := t.entries ++ [(name, function)]

@[simp] theorem names_push (t : FunctionTable) (name : String) (function : Function) :
    (t.push name function).names = t.names ++ [name] := by
  simp [names, push]

/-- A name has a rank exactly if it is that of a function. -/
theorem isSome_rank? (t : FunctionTable) (name : String) :
    (t.rank? name).isSome = t.contains name := by
  obtain ⟨entries⟩ := t
  simp only [rank?, contains, find?]
  induction entries with
  | nil => rfl
  | cons head rest ih =>
    obtain ⟨first, function⟩ := head
    by_cases h : first = name
    · subst h
      simp [List.findIdx?_cons]
    · have : (name == first) = false := by simpa using Ne.symm h
      simpa [List.findIdx?_cons, h, List.lookup_cons, this] using ih

end FunctionTable

end SeriesCalculator
