import SeriesCalculator.Decimal.Text
import SeriesCalculator.Expr.Basic

/-!
# The text of an expression

Numbers and variables stand for themselves, a call is written `f(argument)`, and an operator with its
operands stands in parentheses, without blanks. The text is written from left to right with a list of
what is still to be written, so its cost does not depend on how deeply the tree is nested.
`writeAfter_eq` says that the list is worked off in this order.
-/

namespace SeriesCalculator.Expr

/-- The characters of an expression, by recursion on the tree. -/
def chars : Expr → List Char
  | number value => (Decimal.text value).toList
  | «variable» name => name.toList
  | call function argument => function.toList ++ '(' :: argument.chars ++ [')']
  | binary op left right => '(' :: left.chars ++ op.symbol :: right.chars ++ [')']

/-- What is still to be written: a tree or a character. -/
inductive Unwritten
  | tree (e : Expr)
  | char (c : Char)

namespace Unwritten

/-- The number of steps that writing takes. -/
def weight : Unwritten → Nat
  | tree e => 4 * e.size
  | char _ => 1

/-- The number of steps that writing a list takes. -/
def totalWeight : List Unwritten → Nat
  | [] => 0
  | u :: rest => u.weight + totalWeight rest

/-- What will be written. -/
def chars : Unwritten → List Char
  | tree e => e.chars
  | char c => [c]

end Unwritten

/-- Writes the list of what is still to be written after the characters `done`, of which the last comes
first. -/
def writeAfter (done : List Char) : List Unwritten → List Char
  | [] => done.reverse
  | .char c :: rest => writeAfter (c :: done) rest
  | .tree (number value) :: rest => writeAfter ((Decimal.text value).toList.reverse ++ done) rest
  | .tree («variable» name) :: rest => writeAfter (name.toList.reverse ++ done) rest
  | .tree (call function argument) :: rest =>
    writeAfter ('(' :: (function.toList.reverse ++ done)) (.tree argument :: .char ')' :: rest)
  | .tree (binary op left right) :: rest =>
    writeAfter ('(' :: done) (.tree left :: .char op.symbol :: .tree right :: .char ')' :: rest)
termination_by unwritten => Unwritten.totalWeight unwritten
decreasing_by all_goals simp [Unwritten.totalWeight, Unwritten.weight, size] <;> omega

/-- Everything is written in order. -/
theorem writeAfter_eq (done : List Char) (unwritten : List Unwritten) :
    writeAfter done unwritten = done.reverse ++ unwritten.flatMap Unwritten.chars := by
  fun_induction writeAfter done unwritten with
  | case1 => simp
  | case2 done c rest ih => simp [ih, Unwritten.chars]
  | case3 done value rest ih => simp [ih, Unwritten.chars, chars]
  | case4 done name rest ih => simp [ih, Unwritten.chars, chars]
  | case5 done function argument rest ih => simp [ih, Unwritten.chars, chars]
  | case6 done op left right rest ih => simp [ih, Unwritten.chars, chars]

/-- The text of an expression. -/
def text (e : Expr) : String :=
  String.ofList (writeAfter [] [.tree e])

@[simp] theorem toList_text (e : Expr) : e.text.toList = e.chars := by
  simp [text, writeAfter_eq, Unwritten.chars]

end SeriesCalculator.Expr
