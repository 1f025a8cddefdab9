import SeriesCalculator.Environment.Basic

/-!
# Bindings and calls for a while

A calculation reads and changes an environment and ends in a value or an error. Two brackets go around
calculations: a binding that holds for a while, and a call that counts while it is under way. Both put
back what they changed, whichever way the calculation ends.
-/

namespace SeriesCalculator

/-- A calculation: it depends on an environment, may change it, and ends in a value or an error. The
changes stay when it ends in an error. -/
abbrev Calculation := ExceptT Error (StateM Environment)

namespace Environment

/-- Runs `body` with a variable bound to a value, and then gives the variable back what it had before:
its value, or none. -/
def withBinding {α : Type} (name : String) (value : Float) (body : StateM Environment α) :
    StateM Environment α := do
  let before := (← get).bindings.get? name
  modify fun env => { env with bindings := env.bindings.insert name value }
  let result ← body
  modify fun env => { env with bindings := env.bindings.set name before }
  return result

@[simp] theorem run_withBinding {α : Type} (name : String) (value : Float) (body : StateM Environment α)
    (env : Environment) :
    (withBinding name value body).run env =
      let inner := body.run { env with bindings := env.bindings.insert name value }
      (inner.1, { inner.2 with bindings := inner.2.bindings.set name (env.bindings.get? name) }) :=
  rfl

/-- A body that leaves its environment alone leaves it alone under a binding, too. -/
theorem snd_run_withBinding_of_eq {α : Type} {name : String} {value : Float}
    {body : StateM Environment α} {env : Environment}
    (same : ∀ env, (body.run env).2 = env) : ((withBinding name value body).run env).2 = env := by
  simp [same]

/-- Runs `body` with one more call under way. -/
def counted {α : Type} (body : StateM Environment α) : StateM Environment α := do
  modify fun env => { env with depth := env.depth + 1 }
  let result ← body
  modify fun env => { env with depth := env.depth - 1 }
  return result

@[simp] theorem run_counted {α : Type} (body : StateM Environment α) (env : Environment) :
    (counted body).run env =
      let inner := body.run { env with depth := env.depth + 1 }
      (inner.1, { inner.2 with depth := inner.2.depth - 1 }) :=
  rfl

/-- Runs `body` as a call of a defined function. It fails at once if as many calls as the settings allow
are under way. -/
def withCall {α : Type} (body : Calculation α) : Calculation α := do
  let env ← get
  let limit := env.settings.callLimit.val
  if limit ≤ env.depth then throw (.tooDeep limit) else ExceptT.mk (counted body.run)

end Environment

end SeriesCalculator
