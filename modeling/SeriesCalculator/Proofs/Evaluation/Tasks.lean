import SeriesCalculator.Proofs.Evaluation.Answer
import SeriesCalculator.Proofs.Iteration

/-!
# Tasks, one turn after the other

The evaluation of a tree goes round in a loop: a turn takes the first task away, puts the tasks that
it leads to in its place, and changes the values on the stack, unless it fails, and then the loop
is over. `Stacks.turn` is one turn, and `work` is what comes of going on with it.

Each task takes its operands from the stack and leaves one value there in the end, directly or by
way of the tasks that it leads to. So from the number of values on the stack it follows whether the
tasks find all of their operands and leave one value (`Task.Settle`). One turn keeps this, and makes
the weight of the tasks smaller. From this follow the run of the loop over a whole tree: it ends, it
is never short of a value, and it ends with what recursion on the tree gives, in a value or in the
first error.
-/

namespace SeriesCalculator

namespace Expr

variable {apply : String → Float → Calculation Float}

namespace Task

/-- The number of values that a task takes from the stack. -/
def operands : Task → Nat
  | visit _ => 0
  | call _ => 1
  | operate _ => 2

/-- A task that computes leaves its value on the stack. -/
def leave (values : List Float) (c : Calculation Float) : Calculation (List Task × List Float) := do
  return ([], (← c) :: values)

/-- What a task does: the tasks that it leads to, and the values that it leaves on the stack. -/
def perform (apply : String → Float → Calculation Float) :
    Task → List Float → Calculation (List Task × List Float)
  | visit (number value), values => leave values (pure value)
  | visit («variable» name), values => leave values (lookUp name)
  | visit (Expr.call function argument), values => return ([visit argument, call function], values)
  | visit (binary op left right), values => return ([visit left, visit right, operate op], values)
  | call function, argument :: values => leave values (apply function argument)
  | operate op, right :: left :: values => leave values (Expr.operate op left right)
  | call _, [] | operate _, [] | operate _, [_] => throw (.malformed .noValue)

/-- The tasks are worked off by performing the first one and working off what it leads to. -/
theorem work_cons (task : Task) (tasks : List Task) (values : List Float) :
    work apply (task :: tasks) values =
      task.perform apply values >>= fun (added, values) => work apply (added ++ tasks) values := by
  cases task with
  | visit e => cases e <;> simp [work, perform, leave]
  | call function => cases values <;> simp [work, perform, leave]
  | operate op => rcases values with _ | ⟨right, _ | ⟨left, values⟩⟩ <;> simp [work, perform, leave]

/-- A computed value comes with an answer only. -/
theorem run_leave_eq_ok {values values' : List Float} {c : Calculation Float} {added : List Task}
    {env env' : Environment} (h : (leave values c).run.run env = (.ok (added, values'), env')) :
    added = [] ∧ ∃ value, values' = value :: values := by
  rw [leave, ExceptT.run_bind, StateT.run_bind] at h
  cases ran : c.run.run env with
  | mk answer after =>
      rw [ran] at h
      cases answer with
      | ok value =>
          cases h
          exact ⟨rfl, value, rfl⟩
      | error error => cases h

/-- A task either makes way for the tasks of a tree, or puts one value in the place of its operands,
which are there. -/
theorem perform_cases {task : Task} {values values' : List Float} {added : List Task}
    {env env' : Environment}
    (h : (task.perform apply values).run.run env = (.ok (added, values'), env')) :
    (∃ function argument, task = visit (.call function argument) ∧
      added = [visit argument, call function] ∧ values' = values) ∨
    (∃ op left right, task = visit (.binary op left right) ∧
      added = [visit left, visit right, operate op] ∧ values' = values) ∨
    (added = [] ∧ task.operands ≤ values.length ∧
      ∃ value, values' = value :: values.drop task.operands) := by
  cases task with
  | visit e =>
      cases e with
      | number value =>
          obtain ⟨none, pushed⟩ := run_leave_eq_ok h
          exact .inr (.inr ⟨none, Nat.zero_le _, pushed⟩)
      | «variable» name =>
          obtain ⟨none, pushed⟩ := run_leave_eq_ok h
          exact .inr (.inr ⟨none, Nat.zero_le _, pushed⟩)
      | call function argument =>
          cases h
          exact .inl ⟨function, argument, rfl, rfl, rfl⟩
      | binary op left right =>
          cases h
          exact .inr (.inl ⟨op, left, right, rfl, rfl, rfl⟩)
  | call function =>
      cases values with
      | nil => cases h
      | cons argument values =>
          obtain ⟨none, pushed⟩ := run_leave_eq_ok h
          exact .inr (.inr ⟨none, Nat.le_add_left _ _, pushed⟩)
  | operate op =>
      rcases values with _ | ⟨right, _ | ⟨left, values⟩⟩
      · cases h
      · cases h
      · obtain ⟨none, pushed⟩ := run_leave_eq_ok h
        exact .inr (.inr ⟨none, Nat.le_add_left _ _, pushed⟩)

theorem totalWeight_append (tasks rest : List Task) :
    totalWeight (tasks ++ rest) = totalWeight tasks + totalWeight rest := by
  induction tasks with
  | nil => exact (Nat.zero_add _).symm
  | cons task tasks ih => rw [List.cons_append, totalWeight, totalWeight, ih, Nat.add_assoc]

theorem weight_pos (task : Task) : 0 < task.weight := by
  cases task with
  | visit e => exact Nat.mul_pos (by decide) e.size_pos
  | call function => exact Nat.one_pos
  | operate op => exact Nat.one_pos

theorem totalWeight_perform_lt {task : Task} {values values' : List Float} {added : List Task}
    {env env' : Environment}
    (h : (task.perform apply values).run.run env = (.ok (added, values'), env')) :
    totalWeight added < task.weight := by
  rcases perform_cases h with ⟨_, _, rfl, rfl, _⟩ | ⟨_, _, _, rfl, rfl, _⟩ | ⟨rfl, _⟩
  · simp [totalWeight, weight, size]
    omega
  · simp [totalWeight, weight, size]
    omega
  · exact task.weight_pos

/-- With this number of values on the stack, every task finds its operands, and one value is left
in the end. -/
def Settle : List Task → Nat → Prop
  | [], count => count = 1
  | task :: tasks, count => task.operands ≤ count ∧ Settle tasks (count - task.operands + 1)

/-- The tasks of a tree need no value, and leave one more. -/
theorem Settle.perform {task : Task} {tasks added : List Task} {values values' : List Float}
    {env env' : Environment} (settle : Settle (task :: tasks) values.length)
    (h : (task.perform apply values).run.run env = (.ok (added, values'), env')) :
    Settle (added ++ tasks) values'.length := by
  obtain ⟨_, rest⟩ := settle
  rcases perform_cases h with ⟨_, _, rfl, rfl, rfl⟩ | ⟨_, _, _, rfl, rfl, rfl⟩ |
    ⟨rfl, _, value, rfl⟩
  · simpa [Settle, operands] using rest
  · simpa [Settle, operands] using rest
  · simpa using rest

end Task

/-- Where the loop stands: the tasks, the latest values first, and the environment. -/
structure Stacks where
  tasks : List Task
  values : List Float
  env : Environment

namespace Stacks

variable {s t : Stacks}

/-- The loop starts with the visit of the tree. -/
def start (e : Expr) (env : Environment) : Stacks where
  tasks := [.visit e]
  values := []
  env := env

/-- One turn. There is none if no task is left, or if the first one fails. -/
def turn (apply : String → Float → Calculation Float) (s : Stacks) : Option Stacks :=
  match s.tasks with
  | [] => none
  | task :: tasks =>
    match (task.perform apply s.values).run.run s.env with
    | (.ok (added, values), env) => some ⟨added ++ tasks, values, env⟩
    | (.error _, _) => none

/-- The first task is performed, and the tasks that it leads to take its place. -/
theorem turn_cases (h : s.turn apply = some t) :
    ∃ task tasks added, s.tasks = task :: tasks ∧ t.tasks = added ++ tasks ∧
      (task.perform apply s.values).run.run s.env = (.ok (added, t.values), t.env) := by
  rw [turn] at h
  split at h
  · cases h
  · next task tasks first =>
      split at h
      · next added values env performed =>
          cases h
          exact ⟨task, tasks, added, first, rfl, performed⟩
      · cases h

/-- What is to come of the stacks. -/
def outcome (apply : String → Float → Calculation Float) (s : Stacks) :
    Except Error Float × Environment :=
  (work apply s.tasks s.values).run.run s.env

theorem outcome_of_turn (h : s.turn apply = some t) : s.outcome apply = t.outcome apply := by
  obtain ⟨task, tasks, added, first, next, performed⟩ := turn_cases h
  rw [outcome, outcome, first, next, Task.work_cons, ExceptT.run_bind, StateT.run_bind, performed]
  rfl

theorem totalWeight_turn_lt (h : s.turn apply = some t) :
    Task.totalWeight t.tasks < Task.totalWeight s.tasks := by
  obtain ⟨task, tasks, added, first, next, performed⟩ := turn_cases h
  have lighter := Task.totalWeight_perform_lt performed
  rw [first, next, Task.totalWeight_append, Task.totalWeight]
  omega

/-- The values on the stack are those that the tasks need to leave one value. -/
def Balanced (s : Stacks) : Prop :=
  Task.Settle s.tasks s.values.length

theorem balanced_start (e : Expr) (env : Environment) : (start e env).Balanced :=
  ⟨Nat.zero_le _, rfl⟩

theorem Balanced.turn (h : s.turn apply = some t) (balanced : s.Balanced) : t.Balanced := by
  obtain ⟨task, tasks, added, first, next, performed⟩ := turn_cases h
  rw [Balanced, first] at balanced
  rw [Balanced, next]
  exact balanced.perform performed

/-- The loop is at its end: in a value, which is the only one on the stack, or in the error of the
next task. -/
def Ends (apply : String → Float → Calculation Float) (s : Stacks) :
    Except Error Float × Environment → Prop
  | (.ok value, env) => s.tasks = [] ∧ s.values = [value] ∧ s.env = env
  | (.error error, env) =>
    ∃ task tasks, s.tasks = task :: tasks ∧ task.operands ≤ s.values.length ∧
      (task.perform apply s.values).run.run s.env = (.error error, env)

theorem outcome_of_value {value : Float} (done : s.tasks = []) (single : s.values = [value]) :
    s.outcome apply = (.ok value, s.env) := by
  rw [outcome, done, single, work]
  rfl

theorem outcome_of_error {task : Task} {tasks : List Task} {error : Error} {env : Environment}
    (first : s.tasks = task :: tasks)
    (failed : (task.perform apply s.values).run.run s.env = (.error error, env)) :
    s.outcome apply = (.error error, env) := by
  rw [outcome, first, Task.work_cons, ExceptT.run_bind, StateT.run_bind, failed]
  rfl

/-- Without another turn either no task is left or the first one fails, and it does not fail for
want of a value. -/
theorem Balanced.ends (balanced : s.Balanced) (last : s.turn apply = none) :
    s.Ends apply (s.outcome apply) := by
  rw [Balanced] at balanced
  cases first : s.tasks with
  | nil =>
      rw [first] at balanced
      obtain ⟨value, single⟩ := List.length_eq_one_iff.mp balanced
      rw [outcome_of_value first single]
      exact ⟨first, single, rfl⟩
  | cons task tasks =>
      rw [first] at balanced
      rw [Stacks.turn, first] at last
      cases performed : (task.perform apply s.values).run.run s.env with
      | mk result env =>
          cases result with
          | ok made =>
              simp only [performed] at last
              cases last
          | error error =>
              rw [outcome_of_error first performed]
              exact ⟨task, tasks, first, balanced.1, performed⟩

end Stacks

end Expr

namespace Calculation

theorem preserving_meaning (e : Expr) : Preserving (e.meaning apply) := by
  rw [← Expr.evaluate_eq_meaning]
  exact preserving_evaluateTree_of preserving_apply e

/-- The calls that are left are counted once for the tree or anew for each call: this is the
same, since each part of the tree leaves the environment as it was. -/
theorem answer_meaning (e : Expr) (env : Environment) :
    answer (e.meaning apply) env = answer (evaluateTree e) env := by
  induction e with
  | number value =>
      rw [answer_evaluateTree_number]
      rfl
  | «variable» name => rw [evaluateTree, answer_get_bind, Expr.evaluate_eq_meaning]; rfl
  | call function argument ih =>
      rw [answer_evaluateTree_call, ← ih]
      exact answer_bind env (preserving_meaning argument) _
  | binary op left right ihLeft ihRight =>
      rw [answer_evaluateTree_binary, ← ihLeft, ← ihRight, Expr.meaning,
        answer_bind env (preserving_meaning left)]
      congr 1
      funext a
      rw [answer_bind env (preserving_meaning right)]
      congr 1
      funext b
      exact answer_ofExcept env _

theorem run_evaluateTree (e : Expr) (env : Environment) :
    (evaluateTree e).run.run env = (e.meaning apply).run.run env := by
  rw [run_eq_answer env (preserving_evaluateTree e), run_eq_answer env (preserving_meaning e),
    answer_meaning]

end Calculation

namespace Expr.Stacks

open Calculation

/-- The loop over a tree does what recursion on the tree does: the left operand comes before the
right one, both come before the operator, an argument comes before the function, and the first error
is the answer. At each turn the next task finds its operands on the stack, and where no task is
left, there is one value. The number of turns is bounded by the size of the tree, and the turns
lead to the end. -/
theorem loop_refines_recursion (e : Expr) (env : Environment) :
    (evaluateTree e).run.run env = (e.meaning SeriesCalculator.apply).run.run env ∧
    (∀ turns s, Iterates (turn SeriesCalculator.apply) turns (start e env) s →
      turns ≤ 3 * e.size ∧
      (∀ task tasks, s.tasks = task :: tasks → task.operands ≤ s.values.length) ∧
      (s.tasks = [] → s.values.length = 1)) ∧
    ∃ turns last, Iterates (turn SeriesCalculator.apply) turns (start e env) last ∧
      last.Ends SeriesCalculator.apply ((evaluateTree e).run.run env) := by
  have balanced {turns : Nat} {s : Stacks}
      (run : Iterates (turn SeriesCalculator.apply) turns (start e env) s) : s.Balanced :=
    run.invariant Balanced.turn (balanced_start e env)
  refine ⟨run_evaluateTree e env, ?_, ?_⟩
  · intro turns s run
    refine ⟨?_, ?_, ?_⟩
    · have bound := run.add_measure_le totalWeight_turn_lt
      have weight : Task.totalWeight (start e env).tasks = 3 * e.size := rfl
      omega
    · intro task tasks first
      have settle := balanced run
      rw [Balanced, first] at settle
      exact settle.1
    · intro none
      have settle := balanced run
      rw [Balanced, none] at settle
      exact settle
  · obtain ⟨turns, last, run, ended⟩ :
        ∃ turns last, Iterates (turn SeriesCalculator.apply) turns (start e env) last ∧
          last.turn SeriesCalculator.apply = none :=
      Iterates.exists_end totalWeight_turn_lt (start e env)
    have outcome : (evaluateTree e).run.run env = last.outcome SeriesCalculator.apply := by
      rw [run_evaluateTree, ← evaluate_eq_meaning]
      exact run.apply_eq outcome_of_turn
    rw [outcome]
    exact ⟨turns, last, run, (balanced run).ends ended⟩

end Expr.Stacks

end SeriesCalculator
