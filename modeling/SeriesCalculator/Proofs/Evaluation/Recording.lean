import SeriesCalculator.Proofs.Evaluation.Answer

/-!
# Evaluations on record

The end of an evaluation does not show the environments in between. A recorded calculation keeps
them: every change of the environment puts the new one on the record in front of the earlier ones.
The evaluator is written once more in this form, with the same parts in the same order.

`Faithful` says of a recorded calculation that it does what the plain one does, and that it goes
through no environment with more calls under way than the limit, if the record so far has none.
Only the bracket of a call adds a call, and it asks for the limit first. The induction is the one
on the number of calls that may be made inside each other.
-/

namespace SeriesCalculator

/-- The environments of a calculation: the present one, and those before it, the latest first. -/
structure Record where
  present : Environment
  past : List Environment

namespace Record

/-- The record at the beginning of a calculation. -/
def start (env : Environment) : Record := { present := env, past := [] }

def environments (r : Record) : List Environment := r.present :: r.past

/-- The record after a change of the environment. -/
def change (r : Record) (f : Environment → Environment) : Record :=
  { present := f r.present, past := r.environments }

/-- All environments have the given limit, and no more calls under way than it allows. -/
def Within (limit : Nat) (r : Record) : Prop :=
  ∀ env ∈ r.environments, env.settings.callLimit.val = limit ∧ env.depth ≤ limit

theorem Within.change {limit : Nat} {r : Record} {f : Environment → Environment}
    (h : r.Within limit)
    (next : (f r.present).settings.callLimit.val = limit ∧ (f r.present).depth ≤ limit) :
    (r.change f).Within limit := by
  intro env mem
  rcases List.mem_cons.mp mem with rfl | earlier
  · exact next
  · exact h env earlier

theorem Within.present {limit : Nat} {r : Record} (h : r.Within limit) :
    r.present.settings.callLimit.val = limit ∧ r.present.depth ≤ limit :=
  h r.present List.mem_cons_self

end Record

/-- A calculation that keeps a record. -/
abbrev Recorded := ExceptT Error (StateM Record)

theorem Environment.run_withCall {α : Type} (body : Calculation α) (env : Environment) :
    (withCall body).run.run env =
      let limit := env.settings.callLimit.val
      if limit ≤ env.depth then (.error (.tooDeep limit), env) else (counted body.run).run env := by
  change StateT.run (ExceptT.run (if _ then _ else _)) env = _
  dsimp only
  split <;> rfl

namespace Recorded

variable {α β : Type}

/-- The present environment. -/
def present : Recorded Environment := return (← get).present

/-- Asks a calculation that only looks at the environment. -/
def ask (c : Calculation α) : Recorded α := do
  ofExcept (c.answer (← present))

def change (f : Environment → Environment) : StateM Record Unit :=
  modify fun record => record.change f

def withBinding (name : String) (value : Float) (body : StateM Record α) : StateM Record α := do
  let before := (← get).present.bindings.get? name
  change fun env => { env with bindings := env.bindings.insert name value }
  let result ← body
  change fun env => { env with bindings := env.bindings.set name before }
  return result

def counted (body : StateM Record α) : StateM Record α := do
  change fun env => { env with depth := env.depth + 1 }
  let result ← body
  change fun env => { env with depth := env.depth - 1 }
  return result

def withCall (body : Recorded α) : Recorded α := do
  let env ← present
  let limit := env.settings.callLimit.val
  if limit ≤ env.depth then throw (.tooDeep limit) else ExceptT.mk (counted body.run)

def evaluateTreeWith (apply : String → Float → Recorded Float) : Expr → Recorded Float
  | .number value => return value
  | .variable name => ask (Expr.lookUp name)
  | .call function argument => do apply function (← evaluateTreeWith apply argument)
  | .binary op left right => do
    let a ← evaluateTreeWith apply left
    let b ← evaluateTreeWith apply right
    ask (Expr.operate op a b)

def evaluateWith (apply : String → Float → Recorded Float) (text : String) : Recorded Float := do
  let reading ← ofExcept (((← present).read text).mapError Error.malformed)
  evaluateTreeWith apply reading.tree

def applyWithin : Nat → String → Float → Recorded Float
  | calls, name, x => do
    let env ← present
    match env.functions.find? name with
    | none => throw (.malformed (.unknownFunction name))
    | some (.builtin function) => ofExcept ((function.apply env.settings x).mapError Error.domain)
    | some (.defined body parameter) =>
      match calls with
      | 0 => throw (.tooDeep env.settings.callLimit.val)
      | calls + 1 =>
        withCall <| ExceptT.mk (withBinding parameter x (evaluateWith (applyWithin calls) body).run)

/-- Evaluates a text and keeps a record. -/
def evaluate (text : String) : Recorded Float := do
  let calls := (← present).callsLeft
  evaluateWith (applyWithin calls) text

theorem run_withBinding (name : String) (value : Float) (body : StateM Record α) (record : Record) :
    (withBinding name value body).run record =
      let bound := record.change fun env => { env with bindings := env.bindings.insert name value }
      let inner := body.run bound
      let before := record.present.bindings.get? name
      (inner.1, inner.2.change fun env => { env with bindings := env.bindings.set name before }) :=
  rfl

theorem run_counted (body : StateM Record α) (record : Record) :
    (counted body).run record =
      let inner := body.run (record.change fun env => { env with depth := env.depth + 1 })
      (inner.1, inner.2.change fun env => { env with depth := env.depth - 1 }) :=
  rfl

theorem run_withCall (body : Recorded α) (record : Record) :
    (withCall body).run.run record =
      let limit := record.present.settings.callLimit.val
      if limit ≤ record.present.depth then (.error (.tooDeep limit), record)
      else (counted body.run).run record := by
  change StateT.run (ExceptT.run (if _ then _ else _)) record = _
  dsimp only
  split <;> rfl

/-- A recorded calculation ends as the plain one does, and it keeps its record within the limit. -/
def Faithful (limit : Nat) (m : Recorded α) (c : Calculation α) : Prop :=
  ∀ record, c.run.run record.present = ((m.run.run record).1, (m.run.run record).2.present) ∧
    (record.Within limit → (m.run.run record).2.Within limit)

namespace Faithful

variable {limit : Nat} {m : Recorded α} {c : Calculation α}

theorem pure (a : α) : Faithful limit (pure a) (pure a) := by
  intro record
  exact ⟨rfl, id⟩

theorem throw (error : Error) : Faithful limit (throw error : Recorded α) (throw error) := by
  intro record
  exact ⟨rfl, id⟩

theorem ofExcept (r : Except Error α) : Faithful limit (ofExcept r : Recorded α) (ofExcept r) := by
  cases r with
  | ok a => exact .pure a
  | error error => exact .throw error

theorem ask (h : Calculation.Preserving c) : Faithful limit (Recorded.ask c) c := by
  intro record
  have unchanged := h record.present
  have asked : (Recorded.ask c).run.run record = (c.answer record.present, record) := by
    change StateT.run (ExceptT.run (MonadExcept.ofExcept (c.answer record.present))) record = _
    cases c.answer record.present <;> rfl
  rw [asked]
  exact ⟨Prod.ext rfl unchanged, id⟩

theorem bind {next : α → Recorded β} {next' : α → Calculation β} (first : Faithful limit m c)
    (second : ∀ a, Faithful limit (next a) (next' a)) :
    Faithful limit (m >>= next) (c >>= next') := by
  intro record
  obtain ⟨same, within⟩ := first record
  rw [ExceptT.run_bind, StateT.run_bind, ExceptT.run_bind, StateT.run_bind, same]
  cases ran : m.run.run record with
  | mk result after =>
      rw [ran] at within
      cases result with
      | error error => exact ⟨rfl, within⟩
      | ok a =>
          obtain ⟨same, within'⟩ := second a after
          exact ⟨same, fun h => within' (within h)⟩

theorem present_bind {next : Environment → Recorded α} {plain : Environment → Calculation α}
    (h : ∀ env, Faithful limit (next env) (plain env)) :
    Faithful limit (present >>= next) (get >>= plain) := by
  intro record
  exact h record.present record

theorem withBinding (h : Faithful limit m c) (name : String) (value : Float) :
    Faithful limit (ExceptT.mk (withBinding name value m.run))
      (ExceptT.mk (Environment.withBinding name value c.run)) := by
  intro record
  obtain ⟨same, within⟩ :=
    h (record.change fun env => { env with bindings := env.bindings.insert name value })
  constructor
  · change (Environment.withBinding name value c.run).run record.present = _
    rw [Environment.run_withBinding]
    exact congrArg (fun inner : Except Error α × Environment => (inner.1, { inner.2 with
      bindings := inner.2.bindings.set name (record.present.bindings.get? name) })) same
  · intro start
    have inner := within (start.change start.present)
    exact inner.change inner.present

/-- The count has been compared with the limit before one is added to it. -/
theorem withCall (h : Faithful limit m c) :
    Faithful limit (withCall m) (Environment.withCall c) := by
  intro record
  rw [Environment.run_withCall, run_withCall]
  dsimp only
  split
  · exact ⟨rfl, id⟩
  · rename_i free
    obtain ⟨same, within⟩ := h (record.change fun env => { env with depth := env.depth + 1 })
    constructor
    · rw [Environment.run_counted]
      exact congrArg (fun inner : Except Error α × Environment =>
        (inner.1, { inner.2 with depth := inner.2.depth - 1 })) same
    · intro start
      have present := start.present
      have inner := within (start.change ⟨present.1, by dsimp only; omega⟩)
      have after := inner.present
      exact inner.change ⟨after.1, Nat.le_trans (Nat.sub_le _ _) after.2⟩

end Faithful

variable {limit : Nat}

theorem faithful_evaluateTreeWith {apply : String → Float → Recorded Float}
    {plain : String → Float → Calculation Float}
    (calls : ∀ name x, Faithful limit (apply name x) (plain name x)) (e : Expr) :
    Faithful limit (evaluateTreeWith apply e) (e.evaluate plain) := by
  rw [Expr.evaluate_eq_meaning]
  induction e with
  | number value => exact .pure value
  | «variable» name => exact .ask (Calculation.preserving_lookUp name)
  | call function argument ih => exact ih.bind (calls function)
  | binary op left right ihLeft ihRight =>
      apply ihLeft.bind
      intro a
      apply ihRight.bind
      intro b
      exact .ask (.ofExcept _)

theorem faithful_evaluateWith {apply : String → Float → Recorded Float}
    {plain : String → Float → Calculation Float}
    (calls : ∀ name x, Faithful limit (apply name x) (plain name x)) (text : String) :
    Faithful limit (evaluateWith apply text) (SeriesCalculator.evaluateWith plain text) := by
  apply Faithful.present_bind
  intro env
  apply (Faithful.ofExcept _).bind
  intro reading
  exact faithful_evaluateTreeWith calls reading.tree

theorem faithful_applyWithin (calls : Nat) (name : String) (x : Float) :
    Faithful limit (applyWithin calls name x) (SeriesCalculator.applyWithin calls name x) := by
  induction calls generalizing name x with
  | zero =>
      unfold applyWithin SeriesCalculator.applyWithin
      apply Faithful.present_bind
      intro env
      cases env.functions.find? name with
      | none => exact .throw _
      | some function =>
          cases function with
          | builtin function => exact .ofExcept _
          | defined body parameter => exact .throw _
  | succ calls ih =>
      unfold applyWithin SeriesCalculator.applyWithin
      apply Faithful.present_bind
      intro env
      cases env.functions.find? name with
      | none => exact .throw _
      | some function =>
          cases function with
          | builtin function => exact .ofExcept _
          | defined body parameter =>
              have evaluation := faithful_evaluateWith ih body
              exact (evaluation.withBinding parameter x).withCall

/-- Evaluation on record is evaluation, and no environment on the record has more calls under way
than the limit. -/
theorem faithful_evaluate (text : String) :
    Faithful limit (evaluate text) (SeriesCalculator.evaluate text) := by
  apply Faithful.present_bind
  intro env
  exact faithful_evaluateWith (faithful_applyWithin _) text

end Recorded

end SeriesCalculator
