import SeriesCalculator.Proofs.Evaluation.Recording
import SeriesCalculator.Proofs.Evaluation.Simulation

/-!
# The limit on calls

A lower limit on calls can end an evaluation early, and then the answer says so. It can do nothing
else: an evaluation that does not end in this way has the answer that it has under every higher
limit. The two evaluations go side by side. Each call that the lower limit admits is admitted by
the higher one as well, and the first call that it refuses is the end.
-/

namespace SeriesCalculator

namespace Environment

/-- An environment with another limit on calls. -/
def withCallLimit (env : Environment) (limit : CallLimit) : Environment :=
  { env with settings := { env.settings with callLimit := limit } }

/-- Two environments that differ in their limits on calls only. -/
def LimitsDiffer (low high : CallLimit) (env env' : Environment) : Prop :=
  ∃ common : Environment, env = common.withCallLimit low ∧ env' = common.withCallLimit high

/-- Only the refusal of a call by the lower limit is excused. -/
theorem simulation_limitsDiffer {low high : CallLimit} (le : low.val ≤ high.val) :
    Simulation (fun error => error = .tooDeep low.val) (fun _ => False) (fun _ => True)
      (fun _ => True) (LimitsDiffer low high) where
  enter := by
    rintro _ _ ⟨common, rfl, rfl⟩ parameter x
    exact ⟨common.enter parameter x, rfl, rfl⟩
  admitCall := by
    rintro _ _ ⟨common, rfl, rfl⟩
    by_cases full : low.val ≤ common.depth
    · have refused : (common.withCallLimit low).admitCall = .error (.tooDeep low.val) := if_pos full
      rw [refused]
      apply Agree.left
      rfl
    · have admitted : (common.withCallLimit low).admitCall = .ok () := if_neg full
      have admitted' : (common.withCallLimit high).admitCall = .ok () :=
        if_neg fun higher => full (Nat.le_trans le higher)
      rw [admitted, admitted']
      exact .same _
  builtin := by
    rintro _ _ ⟨common, rfl, rfl⟩ function x
    cases function <;> rfl
  «variable» := by
    rintro _ _ ⟨common, rfl, rfl⟩ name _
    rfl
  function := by
    rintro _ _ ⟨common, rfl, rfl⟩ name _
    rfl
  body := by
    intros
    trivial
  read := by
    rintro _ _ ⟨common, rfl, rfl⟩ text _
    exact .same _
  mentioned := by
    intros
    trivial

/-- Under the lower limit an evaluation is cut off by it, or it answers as under the higher limit.
Evaluation on record shows that no more calls are ever under way than the limit allows. -/
theorem evaluate_withCallLimit {env : Environment} (fresh : env.depth = 0) {low high : CallLimit}
    (le : low.val ≤ high.val) (text : String) :
    ((evaluate text).answer (env.withCallLimit low) = .error (.tooDeep low.val) ∨
      (evaluate text).answer (env.withCallLimit low) =
        (evaluate text).answer (env.withCallLimit high)) ∧
    ∀ limit : CallLimit,
      let recorded := (Recorded.evaluate text).run.run (.start (env.withCallLimit limit))
      (evaluate text).run.run (env.withCallLimit limit) = (recorded.1, recorded.2.present) ∧
      ∀ visited ∈ recorded.2.environments, visited.depth ≤ limit.val := by
  constructor
  · have related : LimitsDiffer low high (env.withCallLimit low) (env.withCallLimit high) :=
      ⟨env, rfl, rfl⟩
    have agree := (simulation_limitsDiffer le).evaluate related text trivial
    rcases agree.eq_or_excused with same | ⟨_, rfl, refused⟩ | ⟨_, no, _⟩
    · exact .inr same
    · exact .inl refused
    · exact no.elim
  · intro limit recorded
    have faithful : Recorded.Faithful limit.val (Recorded.evaluate text) (evaluate text) :=
      Recorded.faithful_evaluate text
    obtain ⟨same, within⟩ := faithful (.start (env.withCallLimit limit))
    have start : (Record.start (env.withCallLimit limit)).Within limit.val := by
      intro visited mem
      obtain rfl := List.mem_singleton.mp mem
      have nothing : (env.withCallLimit limit).depth = 0 := fresh
      exact ⟨rfl, nothing ▸ Nat.zero_le _⟩
    exact ⟨same, fun visited mem => (within start visited mem).2⟩

/-- Two functions that call each other go on until a limit is reached. -/
theorem evaluate_withCallLimit_mutual :
    let functions := (FunctionTable.builtins.push "f" (.defined "g(t)+1" "t")).push "g"
      (.defined "f(t-1)" "t")
    let env : Environment := { initial .default with functions }
    ((evaluate "f(2)").answer (env.withCallLimit (.clamp 2)) = .error (.tooDeep 2) ∨
      (evaluate "f(2)").answer (env.withCallLimit (.clamp 2)) =
        (evaluate "f(2)").answer (env.withCallLimit (.clamp 64))) ∧
    ∀ limit : CallLimit,
      let recorded := (Recorded.evaluate "f(2)").run.run (.start (env.withCallLimit limit))
      (evaluate "f(2)").run.run (env.withCallLimit limit) = (recorded.1, recorded.2.present) ∧
      ∀ visited ∈ recorded.2.environments, visited.depth ≤ limit.val := by
  intro functions env
  have le : (CallLimit.clamp 2).val ≤ (CallLimit.clamp 64).val := by decide
  exact @evaluate_withCallLimit env rfl (.clamp 2) (.clamp 64) le "f(2)"

end Environment

end SeriesCalculator
