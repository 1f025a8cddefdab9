import SeriesCalculator.Proofs.Evaluation.Substitution
import SeriesCalculator.Proofs.Token.Blank

/-!
# Three ways through the same steps

A text can be evaluated, evaluated with an explanation, or taken through the steps of reading and
evaluating one by one. The first two read the text in one go, and the explanation is put beside the
value. The third one does not take off the blanks at the ends of the text first. Where no name
contains a blank and there is something besides blanks in the text, this makes no difference to the
tokens, and then all that follows is the same.
-/

namespace SeriesCalculator

namespace Calculation

variable {env : Environment}

/-- The explanation is the reading of the text. -/
theorem answer_explain (text : String) :
    answer (explain text) env =
      (env.read text).mapError Error.malformed >>= fun reading =>
        (answer (evaluateTree reading.tree) env).map fun value => (value, reading) := by
  rw [explain, answer_get_bind, answer_bind env (.ofExcept _), answer_ofExcept]
  congr 1
  funext reading
  rw [answer_bind env (preserving_evaluateTree reading.tree)]
  cases answer (evaluateTree reading.tree) env <;> rfl

/-- Without its explanation the answer is that of the evaluation. -/
theorem map_fst_answer_explain (text : String) :
    (answer (explain text) env).map Prod.fst = answer (evaluate text) env := by
  rw [answer_explain, answer_evaluate]
  cases env.read text with
  | error fault => rfl
  | ok reading =>
      change ((answer (evaluateTree reading.tree) env).map _).map _ = answer _ env
      cases answer (evaluateTree reading.tree) env <;> rfl

theorem answer_explain_eq_error_iff {text : String} {error : Error} :
    answer (explain text) env = .error error ↔ answer (evaluate text) env = .error error := by
  rw [← map_fst_answer_explain]
  cases answer (explain text) env with
  | error other => simp [Except.map]
  | ok explained => simp [Except.map]

theorem exists_answer_explain_eq_ok_iff {text : String} {value : Float} :
    (∃ reading, answer (explain text) env = .ok (value, reading)) ↔
      answer (evaluate text) env = .ok value := by
  rw [← map_fst_answer_explain]
  cases answer (explain text) env with
  | error error => simp [Except.map]
  | ok explained => simp [Except.map, Prod.ext_iff]

theorem read_of_answer_explain {text : String} {value : Float} {reading : Reading}
    (h : answer (explain text) env = .ok (value, reading)) : env.read text = .ok reading := by
  rw [answer_explain] at h
  cases read : env.read text with
  | error fault =>
      rw [read] at h
      cases h
  | ok other =>
      rw [read] at h
      change (answer (evaluateTree other.tree) env).map _ = _ at h
      cases result : answer (evaluateTree other.tree) env with
      | error error =>
          rw [result] at h
          cases h
      | ok x =>
          rw [result] at h
          cases h
          rfl

end Calculation

/-- The steps of a reading, with what its tree is evaluated to. -/
def Reading.stages (reading : Reading) (result : Except Error Float) : Stages where
  tokens := reading.tokens
  products := reading.products
  polish := reading.polish
  tree := reading.tree
  result := result

namespace Environment

open Calculation

variable {env : Environment} {text : String}

/-- Step by step the tokens of the whole text are read and evaluated. -/
theorem run_stages (env : Environment) (text : String) :
    ∃ steps, (stages text).run env = (steps, env) ∧
      steps.result = (evaluateTokens (env.tokenize text.toList)).answer env ∧
      ∀ reading, env.readTokens (env.tokenize text.toList) = .ok reading →
        steps = reading.stages steps.result := by
  rw [answer_evaluateTokens]
  simp only [stages, StateT.run_bind, StateT.run_get, pure_bind]
  cases arranged : env.reversePolish (env.withProducts (env.tokenize text.toList)) with
  | error fault =>
      rw [readTokens_eq_error_iff.mpr arranged]
      refine ⟨_, rfl, rfl, ?_⟩
      intro reading read
      cases read
  | ok polish =>
      obtain ⟨e, parse⟩ := (Grammar.expression_of_reversePolish arranged).exists_parse
      obtain rfl : e.polish = polish :=
        Except.ok.inj (parse.reversePolish_eq.symm.trans arranged)
      have evaluation := run_eq_answer env (preserving_evaluateTree e)
      rw [readTokens_eq_ok_of_parse parse]
      simp only [treeOf_polish_of_parse parse, StateT.run_bind, evaluation]
      refine ⟨_, rfl, rfl, ?_⟩
      intro reading read
      cases read
      rfl

/-- The tokens of a text do not depend on the blanks at its ends. -/
theorem tokenize_trim
    (unbroken : ∀ name ∈ env.knownNames, ∀ c ∈ name.toList, Text.isBlank c = false)
    (text : List Char) : env.tokenize (Text.trim text) = env.tokenize text := by
  apply Token.ofChars_trim
  intro letters mem
  obtain ⟨name, known, rfl⟩ := List.mem_map.mp mem
  exact unbroken name known

/-- An evaluation ends in a value exactly if the explanation does, with the same value, and in an
error exactly if the explanation does, with the same error; neither leaves a trace in the
environment. The single steps have the same result if no name contains a blank and the text has
something else than blanks, and where there is an explanation, it consists of these steps. -/
theorem evaluate_explain_stages (env : Environment) (text : String) :
    (∀ value, (evaluate text).answer env = .ok value ↔
      ∃ reading, (explain text).answer env = .ok (value, reading)) ∧
    (∀ error, (evaluate text).answer env = .error error ↔
      (explain text).answer env = .error error) ∧
    ((evaluate text).run.run env).2 = env ∧ ((explain text).run.run env).2 = env ∧
    ((∀ name ∈ env.knownNames, ∀ c ∈ name.toList, Text.isBlank c = false) →
      (∃ c ∈ text.toList, Text.isBlank c = false) →
      ∃ steps, (stages text).run env = (steps, env) ∧
        steps.result = (evaluate text).answer env ∧
        ∀ value reading, (explain text).answer env = .ok (value, reading) →
          steps = reading.stages (.ok value)) := by
  refine ⟨?_, ?_, preserving_evaluate text env, preserving_explain text env, ?_⟩
  · intro value
    exact exists_answer_explain_eq_ok_iff.symm
  · intro error
    exact answer_explain_eq_error_iff.symm
  · intro unbroken something
    have rest := Text.isEmpty_trim_eq_false something
    obtain ⟨steps, run, result, read⟩ := run_stages env text
    have same : steps.result = (evaluate text).answer env := by
      rw [result, answer_evaluate_eq_tokens rest, tokenize_trim unbroken]
    refine ⟨steps, run, same, ?_⟩
    intro value reading explained
    have readText := read_of_answer_explain explained
    rw [Environment.read, if_neg (by simp [rest]), tokenize_trim unbroken] at readText
    have ok : (evaluate text).answer env = .ok value :=
      exists_answer_explain_eq_ok_iff.mp ⟨reading, explained⟩
    rw [read reading readText, same, ok]

/-- A product between a no-break space and the end of a line. -/
theorem evaluate_explain_stages_padded :
    let env := initial .default
    ∃ steps, (stages "\u00a02(3)\n").run env = (steps, env) ∧ steps.result = .ok 6 := by
  intro env
  have solid : ∀ name ∈ env.bindings.names ++ env.functions.names,
      name.toList.any Text.isBlank = false := by decide +kernel
  have unbroken : ∀ name ∈ env.knownNames, ∀ c ∈ name.toList, Text.isBlank c = false := by
    intro name known c mem
    exact Bool.eq_false_iff.mpr (List.any_eq_false.mp (solid name (mem_knownNames.mp known)) c mem)
  have something : ∃ c ∈ "\u00a02(3)\n".toList, Text.isBlank c = false :=
    ⟨'2', by decide +kernel, by decide +kernel⟩
  have six : (evaluate "\u00a02(3)\n").answer env = .ok 6 := by
    rw [answer_evaluate_eq_tokens (by decide +kernel), tokenize_initial]
    decide +kernel
  obtain ⟨-, -, -, -, step⟩ := evaluate_explain_stages env "\u00a02(3)\n"
  obtain ⟨steps, run, result, -⟩ := step unbroken something
  exact ⟨steps, run, result.trans six⟩

end Environment

end SeriesCalculator
