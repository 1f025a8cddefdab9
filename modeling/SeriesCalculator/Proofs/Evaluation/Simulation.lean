import SeriesCalculator.Proofs.Evaluation.Agreement
import SeriesCalculator.Proofs.Evaluation.Answer
import SeriesCalculator.Proofs.Expr.Polish

/-!
# Evaluations side by side

The same text is evaluated in two environments that are alike in some respect. What they must have
in common for the answers to agree is collected in `Simulation`: single look-ups, single readings
and the admission of a single call. Calls keep the environments alike, so that whole evaluations
agree (`Simulation.evaluate`).

The induction is on the calls that may still be made in the first environment, and inside of each
on the tree.
-/

namespace SeriesCalculator

/-- Related environments do everything alike that evaluation does in one step, as long as it stays
with known names and with texts in which only known names are read. -/
structure Simulation (excused excused' : Error → Prop) (Known Readable : String → Prop)
    (Related : Environment → Environment → Prop) : Prop where
  enter {env env' : Environment} (h : Related env env') (parameter : String) (x : Float) :
    Related (env.enter parameter x) (env'.enter parameter x)
  admitCall {env env' : Environment} (h : Related env env') :
    Agree excused excused' env.admitCall env'.admitCall
  builtin {env env' : Environment} (h : Related env env') (function : Builtin) (x : Float) :
    function.apply env.settings x = function.apply env'.settings x
  «variable» {env env' : Environment} (h : Related env env') {name : String} (known : Known name) :
    env.bindings.get? name = env'.bindings.get? name
  function {env env' : Environment} (h : Related env env') {name : String} (known : Known name) :
    env.functions.find? name = env'.functions.find? name
  body {env env' : Environment} (h : Related env env') {name body parameter : String}
    (known : Known name) (found : env.functions.find? name = some (.defined body parameter)) :
    Readable body
  read {env env' : Environment} (h : Related env env') {text : String} (readable : Readable text) :
    Agree excused excused' ((env.read text).mapError .malformed)
      ((env'.read text).mapError .malformed)
  mentioned {env env' : Environment} (h : Related env env') {text : String}
    (readable : Readable text) {reading : Reading} (read : env.read text = .ok reading) {name : String}
    (mentioned : reading.tree.Mentions name) : Known name

namespace Simulation

open Calculation

variable {excused excused' : Error → Prop} {Known Readable : String → Prop}
  {Related : Environment → Environment → Prop} {env env' : Environment}

theorem evaluateTree_of_apply (sim : Simulation excused excused' Known Readable Related)
    (related : Related env env')
    (calls : ∀ {name}, Known name → ∀ x,
      Agree excused excused' (answer (apply name x) env) (answer (apply name x) env'))
    {e : Expr} (known : ∀ {name}, e.Mentions name → Known name) :
    Agree excused excused' (answer (evaluateTree e) env) (answer (evaluateTree e) env') := by
  induction e with
  | number value => simpa only [answer_evaluateTree_number] using .same _
  | «variable» name =>
      simp only [answer_evaluateTree_variable, sim.variable related (known rfl)]
      exact .same _
  | call function argument ih =>
      simp only [answer_evaluateTree_call]
      refine (ih fun mentioned => known (.inr mentioned)).bind ?_
      intro x _ _
      exact calls (known (.inl rfl)) x
  | binary op left right ihLeft ihRight =>
      simp only [answer_evaluateTree_binary]
      refine (ihLeft fun mentioned => known (.inl mentioned)).bind ?_
      intro a _ _
      refine (ihRight fun mentioned => known (.inr mentioned)).bind ?_
      intro b _ _
      exact .same _

theorem evaluate_of_apply (sim : Simulation excused excused' Known Readable Related)
    (related : Related env env')
    (calls : ∀ {name}, Known name → ∀ x,
      Agree excused excused' (answer (apply name x) env) (answer (apply name x) env'))
    {text : String} (readable : Readable text) :
    Agree excused excused' (answer (evaluate text) env) (answer (evaluate text) env') := by
  simp only [answer_evaluate]
  refine (sim.read related readable).bind ?_
  intro reading read _
  have ok : env.read text = .ok reading := by
    cases result : env.read text with
    | error fault =>
        rw [result] at read
        cases read
    | ok other =>
        rw [result] at read
        cases read
        rfl
  exact sim.evaluateTree_of_apply related calls (sim.mentioned related readable ok)

/-- A call that is admitted leaves fewer calls for the evaluation of its text. -/
theorem apply (sim : Simulation excused excused' Known Readable Related)
    (related : Related env env') {name : String} (known : Known name) (x : Float) :
    Agree excused excused' (answer (SeriesCalculator.apply name x) env)
      (answer (SeriesCalculator.apply name x) env') := by
  induction left : env.callsLeft using Nat.strongRecOn generalizing env env' name x with
  | ind calls ih =>
      have same := sim.function related known
      cases found : env.functions.find? name with
      | none =>
          rw [answer_apply_unknown env found, answer_apply_unknown env' (same ▸ found)]
          exact .same _
      | some function =>
          cases function with
          | builtin function =>
              rw [answer_apply_builtin env found, answer_apply_builtin env' (same ▸ found),
                sim.builtin related]
              exact .same _
          | defined body parameter =>
              rw [answer_apply_defined env found, answer_apply_defined env' (same ▸ found)]
              refine (sim.admitCall related).bind ?_
              intro _ admitted _
              have more := Environment.admitCall_eq_ok_iff.mp admitted
              have fewer : (env.enter parameter x).callsLeft < calls := by
                rw [env.callsLeft_enter]
                omega
              exact sim.evaluate_of_apply (sim.enter related parameter x)
                (fun known y => ih _ fewer (sim.enter related parameter x) known y rfl)
                (sim.body related known found)

theorem evaluateTree (sim : Simulation excused excused' Known Readable Related)
    (related : Related env env') {e : Expr} (known : ∀ {name}, e.Mentions name → Known name) :
    Agree excused excused' (answer (SeriesCalculator.evaluateTree e) env)
      (answer (SeriesCalculator.evaluateTree e) env') :=
  sim.evaluateTree_of_apply related (fun known x => sim.apply related known x) known

/-- Related environments agree on every text that can be read in them. -/
theorem evaluate (sim : Simulation excused excused' Known Readable Related)
    (related : Related env env') (text : String) (readable : Readable text) :
    Agree excused excused' (answer (SeriesCalculator.evaluate text) env)
      (answer (SeriesCalculator.evaluate text) env') :=
  sim.evaluate_of_apply related (fun known x => sim.apply related known x) readable

end Simulation

end SeriesCalculator
