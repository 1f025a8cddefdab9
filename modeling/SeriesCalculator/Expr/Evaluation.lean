import SeriesCalculator.Environment.Scope
import SeriesCalculator.Expr.Basic

/-!
# The value of an expression

An expression is evaluated with a list of tasks and a stack of values: a tree is visited, a function is
called on the latest value, an operator is applied to the two latest values. The left operand comes
before the right one, and both before the operator; the first error ends the evaluation. Beside it
stands the evaluation by recursion on the tree, and `work_visit` says that the tasks carry it out: a
visited tree leaves its value on the stack, and the stack never runs out.

How a function is called is a parameter, since a defined function evaluates a text in its turn.
-/

namespace SeriesCalculator.Expr

/-- What is still to be done. -/
inductive Task
  | visit (e : Expr)
  | call (function : String)
  | operate (op : Operator)

/-- The number of tasks that a task leads to. -/
def Task.weight : Task → Nat
  | visit e => 3 * e.size
  | call _ => 1
  | operate _ => 1

/-- The number of tasks that a list leads to. -/
def Task.totalWeight : List Task → Nat
  | [] => 0
  | task :: rest => task.weight + totalWeight rest

/-- The value of a variable, which must be bound. -/
def lookUp (name : String) : Calculation Float := do
  match (← get).bindings.get? name with
  | some value => return value
  | none => throw (.malformed (.unboundVariable name))

/-- The value of an operator; only a domain can be at fault. -/
def operate (op : Operator) (left right : Float) : Calculation Float :=
  ofExcept ((op.apply left right).mapError Error.domain)

/-- Works off the tasks. At the end the latest value is the answer. -/
def work (apply : String → Float → Calculation Float) :
    List Task → List Float → Calculation Float
  | [], value :: _ => return value
  | [], [] => throw (.malformed .noValue)
  | .visit (number value) :: tasks, values => work apply tasks (value :: values)
  | .visit («variable» name) :: tasks, values => do
    let value ← lookUp name
    work apply tasks (value :: values)
  | .visit (Expr.call function argument) :: tasks, values =>
    work apply (.visit argument :: .call function :: tasks) values
  | .visit (binary op left right) :: tasks, values =>
    work apply (.visit left :: .visit right :: .operate op :: tasks) values
  | .call function :: tasks, argument :: values => do
    let value ← apply function argument
    work apply tasks (value :: values)
  | .operate op :: tasks, right :: left :: values => do
    let value ← operate op left right
    work apply tasks (value :: values)
  | .call _ :: _, [] | .operate _ :: _, [] | .operate _ :: _, [_] =>
    throw (.malformed .noValue)
termination_by tasks => Task.totalWeight tasks
decreasing_by all_goals simp [Task.totalWeight, Task.weight, size] <;> omega

/-- Evaluates an expression, with `apply` for the calls. -/
def evaluate (apply : String → Float → Calculation Float) (e : Expr) : Calculation Float :=
  work apply [.visit e] []

/-- Evaluation by recursion on the tree. -/
def meaning (apply : String → Float → Calculation Float) : Expr → Calculation Float
  | number value => return value
  | «variable» name => lookUp name
  | Expr.call function argument => do apply function (← argument.meaning apply)
  | binary op left right => do
    let a ← left.meaning apply
    let b ← right.meaning apply
    operate op a b

/-- Visiting a tree computes its value and goes on with the remaining tasks. -/
theorem work_visit (apply : String → Float → Calculation Float) (e : Expr) (tasks : List Task)
    (values : List Float) :
    work apply (.visit e :: tasks) values =
      e.meaning apply >>= fun value => work apply tasks (value :: values) := by
  induction e generalizing tasks values with
  | number value => simp [work, meaning]
  | «variable» name => simp [work, meaning]
  | call function argument ih =>
    rw [work, ih]
    simp [work, meaning]
  | binary op left right ihLeft ihRight =>
    rw [work, ihLeft]
    simp [work, meaning, ihRight]

/-- The tasks compute what recursion on the tree computes. -/
theorem evaluate_eq_meaning (apply : String → Float → Calculation Float) (e : Expr) :
    e.evaluate apply = e.meaning apply := by
  simp [evaluate, work_visit, work]

end SeriesCalculator.Expr
