import SeriesCalculator.Calculus

/-!
# Evaluations leave the environment alone

An evaluation binds parameters and counts calls in the environment that it is given. `Preserving`
says that none of this is left at the end, whether the evaluation ends in a value or in an error.
Everything that only looks at the environment is preserving, and so is a sequence of preserving
parts, which an error in any of them ends. The two brackets make preserving calculations of
preserving ones: a binding gives the variable back what it had, and a call takes one from the count
to which it has added one.

A defined function evaluates its text with one call less to make, so that the induction is on the
number of calls that may be made inside each other.
-/

namespace SeriesCalculator

namespace Calculation

/-- A calculation that leaves every environment as it was, whichever way it ends. -/
def Preserving {α : Type} (c : Calculation α) : Prop :=
  ∀ env, (c.run.run env).2 = env

namespace Preserving

variable {α β : Type}

theorem pure (a : α) : Preserving (pure a) := by
  intro env
  rfl

theorem throw (error : Error) : Preserving (throw error : Calculation α) := by
  intro env
  rfl

theorem ofExcept (answer : Except Error α) : Preserving (ofExcept answer : Calculation α) := by
  cases answer with
  | ok a => exact .pure a
  | error error => exact .throw error

/-- The second part starts in the environment in which the first one has started, if it starts at
all. -/
theorem bind {c : Calculation α} {next : α → Calculation β} (first : Preserving c)
    (second : ∀ a, Preserving (next a)) : Preserving (c >>= next) := by
  intro env
  have unchanged := first env
  rw [ExceptT.run_bind, StateT.run_bind]
  cases ran : c.run.run env with
  | mk answer after =>
      rw [ran] at unchanged
      obtain rfl : after = env := unchanged
      cases answer with
      | ok a => exact second a after
      | error error => rfl

/-- What is read from the environment may decide how the calculation goes on. -/
theorem get_bind {next : Environment → Calculation α} (h : ∀ env, Preserving (next env)) :
    Preserving (get >>= next) := by
  intro env
  exact h env env

theorem withBinding {c : Calculation α} (h : Preserving c) (name : String) (value : Float) :
    Preserving (ExceptT.mk (Environment.withBinding name value c.run)) := by
  intro env
  exact Environment.snd_run_withBinding_of_eq h

theorem counted {c : Calculation α} (h : Preserving c) :
    Preserving (ExceptT.mk (Environment.counted c.run)) := by
  intro env
  have inner := h { env with depth := env.depth + 1 }
  change ((Environment.counted c.run).run env).2 = env
  rw [Environment.run_counted]
  simp [inner]

/-- A call that is refused has not been counted yet. -/
theorem withCall {c : Calculation α} (h : Preserving c) : Preserving (Environment.withCall c) := by
  apply get_bind
  intro env
  dsimp only
  split
  · exact throw _
  · exact h.counted

end Preserving

theorem preserving_lookUp (name : String) : Preserving (Expr.lookUp name) := by
  apply Preserving.get_bind
  intro env
  cases env.bindings.get? name with
  | none => exact .throw _
  | some value => exact .pure value

section

variable {apply : String → Float → Calculation Float}

/-- The induction is on the tree. The tasks come in by their equation with the recursion. -/
theorem preserving_evaluateTree_of (calls : ∀ name x, Preserving (apply name x)) (e : Expr) :
    Preserving (e.evaluate apply) := by
  rw [Expr.evaluate_eq_meaning]
  induction e with
  | number value => exact .pure value
  | «variable» name => exact preserving_lookUp name
  | call function argument ih => exact ih.bind (calls function)
  | binary op left right ihLeft ihRight =>
      apply ihLeft.bind
      intro a
      apply ihRight.bind
      intro b
      exact .ofExcept _

theorem preserving_evaluateWith (calls : ∀ name x, Preserving (apply name x)) (text : String) :
    Preserving (evaluateWith apply text) := by
  apply Preserving.get_bind
  intro env
  apply (Preserving.ofExcept _).bind
  intro reading
  exact preserving_evaluateTree_of calls reading.tree

end

/-- A call of a defined function is an evaluation inside of both brackets. The induction is on
the number of calls that may be made inside each other. -/
theorem preserving_applyWithin (calls : Nat) (name : String) (x : Float) :
    Preserving (applyWithin calls name x) := by
  induction calls generalizing name x with
  | zero =>
      unfold applyWithin
      apply Preserving.get_bind
      intro env
      cases env.functions.find? name with
      | none => exact .throw _
      | some function =>
          cases function with
          | builtin function => exact .ofExcept _
          | defined body parameter => exact .throw _
  | succ calls ih =>
      unfold applyWithin
      apply Preserving.get_bind
      intro env
      cases env.functions.find? name with
      | none => exact .throw _
      | some function =>
          cases function with
          | builtin function => exact .ofExcept _
          | defined body parameter =>
              have evaluation := preserving_evaluateWith ih body
              exact (evaluation.withBinding parameter x).withCall

theorem preserving_apply (name : String) (x : Float) : Preserving (apply name x) := by
  apply Preserving.get_bind
  intro env
  exact preserving_applyWithin _ name x

theorem preserving_evaluateTree (tree : Expr) : Preserving (evaluateTree tree) := by
  apply Preserving.get_bind
  intro env
  exact preserving_evaluateTree_of (preserving_applyWithin _) tree

theorem preserving_evaluate (text : String) : Preserving (evaluate text) := by
  apply Preserving.get_bind
  intro env
  exact preserving_evaluateWith (preserving_applyWithin _) text

theorem preserving_explain (text : String) : Preserving (explain text) := by
  apply Preserving.get_bind
  intro env
  apply (Preserving.ofExcept _).bind
  intro reading
  apply (preserving_evaluateTree reading.tree).bind
  intro value
  exact .pure _

theorem preserving_sample (text variableName : String) (x : Float) :
    Preserving (sample text variableName x) :=
  (preserving_evaluate text).withBinding variableName x

theorem preserving_derivativeWith (text variableName : String) (point step : Float) :
    Preserving (derivativeWith text variableName point step) := by
  unfold derivativeWith
  split
  · exact .throw _
  · apply (preserving_sample text variableName point).bind
    intro here
    apply (preserving_sample text variableName _).bind
    intro there
    exact .pure _

theorem preserving_addSamples {f : Float → Calculation Float} (samples : ∀ x, Preserving (f x))
    (a h : Float) (weight count i : Nat) (sum : Float) :
    Preserving (addSamples f a h weight count i sum) := by
  induction count generalizing i sum with
  | zero => exact .pure sum
  | succ count ih =>
      apply (samples _).bind
      intro y
      exact ih _ _

/-- The samples may fail at any point of the formula. -/
theorem preserving_simpson {f : Float → Calculation Float} (samples : ∀ x, Preserving (f x))
    (a b : Float) (intervals : Nat) : Preserving (simpson f a b intervals) := by
  apply (samples a).bind
  intro first
  apply (samples b).bind
  intro last
  apply (preserving_addSamples samples a _ 4 _ 1 _).bind
  intro odd
  apply (preserving_addSamples samples a _ 2 _ 2 _).bind
  intro even
  exact .pure _

theorem preserving_integralWith (text variableName : String) (a b : Float) (intervals : Nat) :
    Preserving (integralWith text variableName a b intervals) := by
  unfold integralWith
  split
  · exact .throw _
  · split
    · exact .throw _
    · exact preserving_simpson (preserving_sample text variableName) a b intervals

end Calculation

namespace Environment

/-- The variables, the functions, the settings and the count of calls are after every evaluation
what they were before, also where it ends in an error. -/
theorem evaluations_preserve_environment (env : Environment) :
    (∀ text, ((evaluate text).run.run env).2 = env) ∧
    (∀ text, ((explain text).run.run env).2 = env) ∧
    (∀ name x, ((apply name x).run.run env).2 = env) ∧
    (∀ text variableName point, ((derivative text variableName point).run.run env).2 = env) ∧
    (∀ text variableName point step,
      ((derivativeWith text variableName point step).run.run env).2 = env) ∧
    (∀ text variableName a b, ((integral text variableName a b).run.run env).2 = env) ∧
    (∀ text variableName a b intervals,
      ((integralWith text variableName a b intervals).run.run env).2 = env) := by
  open Calculation in
  refine ⟨?_, ?_, ?_, ?_, ?_, ?_, ?_⟩
  · intro text
    exact preserving_evaluate text env
  · intro text
    exact preserving_explain text env
  · intro name x
    exact preserving_apply name x env
  · intro text variableName point
    exact Preserving.get_bind (fun _ => preserving_derivativeWith text variableName point _) env
  · intro text variableName point step
    exact preserving_derivativeWith text variableName point step env
  · intro text variableName a b
    exact Preserving.get_bind (fun _ => preserving_integralWith text variableName a b _) env
  · intro text variableName a b intervals
    exact preserving_integralWith text variableName a b intervals env

end Environment

end SeriesCalculator
