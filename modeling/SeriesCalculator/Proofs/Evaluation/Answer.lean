import SeriesCalculator.Proofs.Environment.Frame

/-!
# Answers

An evaluation leaves its environment alone, so all that it does is to answer, and `answer` is this
answer as a function of the environment. The parts of a sequence answer in one and the same
environment; a bracket changes the environment of what is inside of it.

From this follow equations for texts, trees and functions, without a state and without a bound on
the recursion. The call of a defined function (`answer_apply_defined`) is the evaluation of its
text in the environment that the call enters, unless no further call is admitted.
-/

namespace SeriesCalculator

namespace Environment

/-- The environment in which the text of a defined function is evaluated. -/
def enter (env : Environment) (parameter : String) (x : Float) : Environment :=
  { env with bindings := env.bindings.insert parameter x, depth := env.depth + 1 }

/-- Admits one more call, or refuses it if as many as the settings allow are under way. -/
def admitCall (env : Environment) : Except Error Unit :=
  let limit := env.settings.callLimit.val
  if limit ≤ env.depth then .error (.tooDeep limit) else .ok ()

theorem admitCall_eq_ok_iff {env : Environment} : env.admitCall = .ok () ↔ 0 < env.callsLeft := by
  have left : 0 < env.callsLeft ↔ ¬ env.settings.callLimit.val ≤ env.depth := by
    simp only [callsLeft]
    omega
  rw [left, admitCall]
  split <;> simp [*]

theorem callsLeft_enter (env : Environment) (parameter : String) (x : Float) :
    (env.enter parameter x).callsLeft = env.callsLeft - 1 :=
  Nat.sub_add_eq _ _ _

end Environment

/-- An answer can be computed and compared with what it should be. -/
instance decidableEqExcept {ε α : Type} [DecidableEq ε] [DecidableEq α] :
    DecidableEq (Except ε α)
  | .ok a, .ok b => decidable_of_iff (a = b) (by simp)
  | .error a, .error b => decidable_of_iff (a = b) (by simp)
  | .ok _, .error _ => isFalse nofun
  | .error _, .ok _ => isFalse nofun

namespace Calculation

/-- What a calculation ends in, as a function of the environment. -/
def answer {α : Type} (c : Calculation α) (env : Environment) : Except Error α :=
  (c.run.run env).1

section

variable {α β : Type} (env : Environment)

theorem run_eq_answer {c : Calculation α} (h : Preserving c) :
    c.run.run env = (answer c env, env) :=
  Prod.ext rfl (h env)

@[simp] theorem answer_ofExcept (r : Except Error α) : answer (ofExcept r) env = r := by
  cases r <;> rfl

theorem answer_get_bind (next : Environment → Calculation α) :
    answer (get >>= next) env = answer (next env) env := rfl

theorem answer_bind {c : Calculation α} (h : Preserving c) (next : α → Calculation β) :
    answer (c >>= next) env = answer c env >>= fun a => answer (next a) env := by
  have unchanged := h env
  simp only [answer]
  rw [ExceptT.run_bind, StateT.run_bind]
  cases ran : c.run.run env with
  | mk result after =>
      rw [ran] at unchanged
      obtain rfl : after = env := unchanged
      cases result with
      | ok a => rfl
      | error error => rfl

theorem answer_withBinding (name : String) (value : Float) (c : Calculation α) :
    answer (ExceptT.mk (Environment.withBinding name value c.run)) env =
      answer c { env with bindings := env.bindings.insert name value } := rfl

theorem answer_withCall (c : Calculation α) :
    answer (Environment.withCall c) env =
      env.admitCall >>= fun _ => answer c { env with depth := env.depth + 1 } := by
  rw [Environment.withCall, answer_get_bind, Environment.admitCall]
  dsimp only
  split <;> rfl

end

section

variable (env : Environment)

theorem answer_evaluateTree_number (value : Float) :
    answer (evaluateTree (.number value)) env = .ok value := by
  rw [evaluateTree, answer_get_bind, Expr.evaluate_eq_meaning]
  rfl

theorem answer_evaluateTree_variable (name : String) :
    answer (evaluateTree (.variable name)) env =
      match env.bindings.get? name with
      | some value => .ok value
      | none => .error (.malformed (.unboundVariable name)) := by
  rw [evaluateTree, answer_get_bind, Expr.evaluate_eq_meaning, Expr.meaning, Expr.lookUp,
    answer_get_bind]
  cases env.bindings.get? name <;> rfl

theorem answer_evaluateTree_call (function : String) (argument : Expr) :
    answer (evaluateTree (.call function argument)) env =
      answer (evaluateTree argument) env >>= fun x => answer (apply function x) env := by
  have first := preserving_evaluateTree_of (preserving_applyWithin env.callsLeft) argument
  rw [Expr.evaluate_eq_meaning] at first
  simp only [evaluateTree, answer_get_bind, Expr.evaluate_eq_meaning, Expr.meaning]
  exact answer_bind env first _

theorem answer_evaluateTree_binary (op : Operator) (left right : Expr) :
    answer (evaluateTree (.binary op left right)) env =
      answer (evaluateTree left) env >>= fun a =>
        answer (evaluateTree right) env >>= fun b => (op.apply a b).mapError Error.domain := by
  have preserving (e : Expr) := preserving_evaluateTree_of (preserving_applyWithin env.callsLeft) e
  simp only [Expr.evaluate_eq_meaning] at preserving
  simp only [evaluateTree, answer_get_bind, Expr.evaluate_eq_meaning, Expr.meaning]
  rw [answer_bind env (preserving left)]
  congr 1
  funext a
  rw [answer_bind env (preserving right)]
  congr 1
  funext b
  exact answer_ofExcept env _

theorem answer_evaluate (text : String) :
    answer (evaluate text) env =
      (env.read text).mapError Error.malformed >>= fun reading =>
        answer (evaluateTree reading.tree) env := by
  rw [evaluate, answer_get_bind, evaluateWith, answer_get_bind, answer_bind env (.ofExcept _),
    answer_ofExcept]
  rfl

theorem answer_evaluate_of_tree {text : String} {e : Expr}
    (tree : (env.read text).map Reading.tree = .ok e) :
    answer (evaluate text) env = answer (evaluateTree e) env := by
  rw [answer_evaluate]
  cases read : env.read text with
  | error fault =>
      rw [read] at tree
      cases tree
  | ok reading =>
      rw [read] at tree
      cases tree
      rfl

theorem answer_apply_unknown {name : String} (unknown : env.functions.find? name = none)
    (x : Float) : answer (apply name x) env = .error (.malformed (.unknownFunction name)) := by
  rw [apply, answer_get_bind, applyWithin.eq_def, answer_get_bind, unknown]
  rfl

theorem answer_apply_builtin {name : String} {function : Builtin}
    (found : env.functions.find? name = some (.builtin function)) (x : Float) :
    answer (apply name x) env = (function.apply env.settings x).mapError Error.domain := by
  rw [apply, answer_get_bind, applyWithin.eq_def, answer_get_bind, found]
  exact answer_ofExcept env _

/-- The text is evaluated as every text is, only in the environment of the call: the calls that may
still be made there are one fewer. -/
theorem answer_apply_defined {name body parameter : String}
    (found : env.functions.find? name = some (.defined body parameter)) (x : Float) :
    answer (apply name x) env =
      env.admitCall >>= fun _ => answer (evaluate body) (env.enter parameter x) := by
  have fewer := env.callsLeft_enter parameter x
  rw [apply, answer_get_bind, applyWithin.eq_def, answer_get_bind, found, evaluate]
  simp only [answer_get_bind, fewer]
  cases left : env.callsLeft with
  | zero =>
      have refused : env.settings.callLimit.val ≤ env.depth := Nat.sub_eq_zero_iff_le.mp left
      rw [Environment.admitCall, if_pos refused]
      rfl
  | succ calls =>
      dsimp only
      rw [answer_withCall, answer_withBinding, Nat.add_sub_cancel]
      rfl

/-- A call that is admitted has the value of the text of its function. -/
theorem answer_evaluateTree_call_defined {name body parameter : String} {argument : Expr}
    {x y : Float} (found : env.functions.find? name = some (.defined body parameter))
    (admitted : env.admitCall = .ok ()) (before : answer (evaluateTree argument) env = .ok x)
    (value : answer (evaluate body) (env.enter parameter x) = .ok y) :
    answer (evaluateTree (.call name argument)) env = .ok y := by
  rw [answer_evaluateTree_call, before]
  change answer (apply name x) env = .ok y
  rw [answer_apply_defined env found, admitted]
  exact value

end

end Calculation

end SeriesCalculator
