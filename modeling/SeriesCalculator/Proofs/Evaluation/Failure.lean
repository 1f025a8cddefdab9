import SeriesCalculator.Proofs.Evaluation.Unrelated
import SeriesCalculator.Proofs.Reading.Faults

/-!
# Where the errors of an evaluation come from

A tree that has been read mentions nothing undefined. So its evaluation can fail in three ways only
(`Failure`): an argument lies outside a domain, a call is refused because of the limit, or a
function is called whose text cannot be read. In the third case the calls that lead from the tree to
this text are on record as `Opens`, each one with an argument that has a value.

The induction is on the calls that may still be made, and inside of each on the tree. What carries
it is that a call leaves the caller's environment as it was, so that what has been read against it
stays defined, and that the text of a function is read against the environment in which its tree is
then evaluated.
-/

namespace SeriesCalculator

open Calculation

/-- The evaluation of a tree in an environment comes to the text of a defined function, which it
reads and evaluates in the environment of the call. -/
inductive Opens : Environment → Expr → Environment → String → Prop
  | call {env : Environment} {name body parameter : String} {argument : Expr} {x : Float}
      (value : answer (evaluateTree argument) env = .ok x)
      (found : env.functions.find? name = some (.defined body parameter))
      (admitted : env.admitCall = .ok ()) :
      Opens env (.call name argument) (env.enter parameter x) body
  | inside {env env' env'' : Environment} {e : Expr} {body body' : String} {reading : Reading}
      (first : Opens env e env' body) (read : env'.read body = .ok reading)
      (next : Opens env' reading.tree env'' body') : Opens env e env'' body'
  | argument {env env' : Environment} {name body : String} {argument : Expr}
      (h : Opens env argument env' body) : Opens env (.call name argument) env' body
  | left {env env' : Environment} {op : Operator} {left right : Expr} {body : String}
      (h : Opens env left env' body) : Opens env (.binary op left right) env' body
  | right {env env' : Environment} {op : Operator} {left right : Expr} {body : String} {x : Float}
      (value : answer (evaluateTree left) env = .ok x)
      (h : Opens env right env' body) : Opens env (.binary op left right) env' body

namespace Opens

variable {env env' : Environment} {e : Expr} {body : String}

theorem functions_eq (h : Opens env e env' body) : env'.functions = env.functions := by
  induction h with
  | call => rfl
  | inside _ _ _ ihFirst ihNext => exact ihNext.trans ihFirst
  | argument _ ih => exact ih
  | left _ ih => exact ih
  | right _ _ ih => exact ih

/-- Only the texts of defined functions are opened. -/
theorem mem_bodies (h : Opens env e env' body) : body ∈ env.functions.bodies := by
  induction h with
  | call _ found _ => exact FunctionTable.mem_bodies_of_find? found
  | inside first _ _ _ ihNext => exact first.functions_eq ▸ ihNext
  | argument _ ih => exact ih
  | left _ ih => exact ih
  | right _ _ ih => exact ih

end Opens

/-- The ways in which the evaluation of a tree can fail. -/
inductive Failure (env : Environment) (e : Expr) : Error → Prop
  /-- An argument of a function or an operator lies outside its domain. -/
  | domain (fault : DomainFault) : Failure env e (.domain fault)
  /-- There is a defined function, and a call of one is refused. -/
  | refused {body : String} (mem : body ∈ env.functions.bodies) (limit : Nat) :
      Failure env e (.tooDeep limit)
  /-- The text of a function that is called cannot be read. -/
  | reading {env' : Environment} {body : String} {fault : ExpressionFault}
      (opened : Opens env e env' body) (read : env'.read body = .error fault) :
      Failure env e (.malformed fault)

/-- A tree fails for every reason for which a part of it fails that is come to. -/
theorem Failure.of_part {env env' : Environment} {e part : Expr} {error : Error}
    (h : Failure env' part error) (functions : env'.functions = env.functions)
    (opens : ∀ {inner body}, Opens env' part inner body → Opens env e inner body) :
    Failure env e error := by
  cases h with
  | domain fault => exact .domain fault
  | refused mem limit => exact .refused (functions ▸ mem) limit
  | reading opened read => exact .reading (opens opened) read

namespace Calculation

variable {env : Environment} {error : Error}

/-- A text is not read, or its tree fails. -/
theorem of_answer_evaluate_eq_error {text : String}
    (h : answer (evaluate text) env = .error error) :
    (∃ fault, env.read text = .error fault ∧ error = .malformed fault) ∨
      ∃ reading, env.read text = .ok reading ∧
        answer (evaluateTree reading.tree) env = .error error := by
  rw [answer_evaluate] at h
  rcases of_bind_eq_error h with unread | ⟨reading, read, failed⟩
  · exact .inl (of_mapError_eq_error unread)
  · exact .inr ⟨reading, of_mapError_eq_ok read, failed⟩

theorem failure_of_evaluateTree_of_apply
    (calls : ∀ {name argument x error}, env.functions.contains name = true →
      answer (evaluateTree argument) env = .ok x → answer (apply name x) env = .error error →
      Failure env (.call name argument) error)
    {e : Expr} (defined : e.DefinedIn env) (h : answer (evaluateTree e) env = .error error) :
    Failure env e error := by
  induction e with
  | number value =>
      rw [answer_evaluateTree_number] at h
      cases h
  | «variable» name =>
      obtain ⟨value, bound⟩ := Option.isSome_iff_exists.mp defined
      rw [answer_evaluateTree_variable, bound] at h
      cases h
  | call name argument ih =>
      rw [answer_evaluateTree_call] at h
      rcases of_bind_eq_error h with inArgument | ⟨x, value, failed⟩
      · exact (ih defined.2 inArgument).of_part rfl .argument
      · exact calls defined.1 value failed
  | binary op left right ihLeft ihRight =>
      rw [answer_evaluateTree_binary] at h
      rcases of_bind_eq_error h with inLeft | ⟨a, valueLeft, h⟩
      · exact (ihLeft defined.1 inLeft).of_part rfl .left
      rcases of_bind_eq_error h with inRight | ⟨b, valueRight, failed⟩
      · exact (ihRight defined.2 inRight).of_part rfl (.right valueLeft)
      · obtain ⟨fault, -, rfl⟩ := of_mapError_eq_error failed
        exact .domain fault

/-- A call that is admitted leaves fewer calls for the evaluation of its text, and what is wrong
there is wrong with the call. -/
theorem failure_of_apply {name : String} {argument : Expr} {x : Float}
    (function : env.functions.contains name = true)
    (value : answer (evaluateTree argument) env = .ok x)
    (h : answer (apply name x) env = .error error) : Failure env (.call name argument) error := by
  induction left : env.callsLeft using Nat.strongRecOn generalizing env name argument x error with
  | ind calls ih =>
      obtain ⟨f, found⟩ := Option.isSome_iff_exists.mp function
      cases f with
      | builtin function =>
          rw [answer_apply_builtin env found] at h
          obtain ⟨fault, -, rfl⟩ := of_mapError_eq_error h
          exact .domain fault
      | defined body parameter =>
          rw [answer_apply_defined env found] at h
          rcases of_bind_eq_error h with refused | ⟨_, admitted, h⟩
          · rw [Environment.admitCall] at refused
            split at refused <;> cases refused
            exact .refused (FunctionTable.mem_bodies_of_find? found) _
          have opened : Opens env (.call name argument) (env.enter parameter x) body :=
            .call value found admitted
          rcases of_answer_evaluate_eq_error h with ⟨fault, read, rfl⟩ | ⟨reading, read, failed⟩
          · exact .reading opened read
          have more := Environment.admitCall_eq_ok_iff.mp admitted
          have fewer : (env.enter parameter x).callsLeft < calls := by
            rw [env.callsLeft_enter]
            omega
          have failure : Failure (env.enter parameter x) reading.tree error :=
            failure_of_evaluateTree_of_apply
              (fun function value failed => ih _ fewer function value failed rfl)
              (Environment.definedIn_of_read read) failed
          exact failure.of_part rfl (.inside opened read)

/-- A tree in which nothing is undefined fails in one of the three ways. -/
theorem failure_of_evaluateTree {e : Expr} (defined : e.DefinedIn env)
    (h : answer (evaluateTree e) env = .error error) : Failure env e error :=
  failure_of_evaluateTree_of_apply failure_of_apply defined h

end Calculation

namespace Environment

/-- What is read from a text has no undefined names, and no evaluation of it reports one, or that a
value is missing. So an evaluation never ends in the error that a name is taken. If it ends in the
error that an expression is malformed, the text has this fault, or the text of a function has it
that the evaluation comes to. Without defined functions a text that is read fails in a domain
only. -/
theorem evaluate_error_origins (env : Environment) (text : String) :
    (∀ (characters : List Char) reading,
      env.readTokens (env.tokenize characters) = .ok reading →
        reading.tree.DefinedIn env ∧
        ∀ fault, (evaluateTree reading.tree).answer env = .error (.malformed fault) →
          ¬ fault.OfEvaluation) ∧
    (∀ name, (evaluate text).answer env ≠ .error (.nameTaken name)) ∧
    (∀ fault, (evaluate text).answer env = .error (.malformed fault) →
      env.read text = .error fault ∨
        ∃ reading env' body, env.read text = .ok reading ∧ body ∈ env.functions.bodies ∧
          Opens env reading.tree env' body ∧ env'.read body = .error fault) ∧
    (env.functions.bodies = [] →
      (∀ fault, env.read text = .error fault →
        (evaluate text).answer env = .error (.malformed fault)) ∧
      ∀ reading error, env.read text = .ok reading →
        (evaluate text).answer env = .error error → ∃ fault, error = .domain fault) := by
  refine ⟨?_, ?_, ?_, ?_⟩
  · intro characters reading read
    have defined := definedIn_of_readTokens read
    refine ⟨defined, ?_⟩
    intro fault failed
    cases failure_of_evaluateTree defined failed with
    | reading opened unread => exact not_ofEvaluation_of_read unread
  · intro name failed
    rcases of_answer_evaluate_eq_error failed with ⟨fault, -, no⟩ | ⟨reading, read, failed⟩
    · cases no
    · cases failure_of_evaluateTree (definedIn_of_read read) failed
  · intro fault failed
    rcases of_answer_evaluate_eq_error failed with ⟨_, unread, ⟨⟩⟩ | ⟨reading, read, failed⟩
    · exact .inl unread
    · cases failure_of_evaluateTree (definedIn_of_read read) failed with
      | reading opened unread => exact .inr ⟨reading, _, _, read, opened.mem_bodies, opened, unread⟩
  · intro none
    constructor
    · intro fault unread
      rw [answer_evaluate, unread]
      rfl
    · intro reading error read failed
      rw [answer_evaluate, read] at failed
      cases failure_of_evaluateTree (definedIn_of_read read) failed with
      | domain fault => exact ⟨fault, rfl⟩
      | refused mem => simp [none] at mem
      | reading opened => simpa [none] using opened.mem_bodies

/-- A function whose text is blank is at fault where it is called. -/
theorem evaluate_error_origins_blank :
    let env : Environment :=
      { initial .default with functions := FunctionTable.builtins.push "f" (.defined " " "t") }
    (evaluate "f(3)").answer env = .error (.malformed .emptyInput) ∧
    ∃ reading env' body, env.read "f(3)" = .ok reading ∧ body ∈ env.functions.bodies ∧
      Opens env reading.tree env' body ∧ env'.read body = .error .emptyInput := by
  intro env
  have tokens (text : List Char) : env.tokenize text = Token.ofChars
      ["cosec", "sin", "cos", "tan", "sec", "csc", "cot", "abs", "exp", "pi", "ln", "e", "f"]
      text :=
    tokenize_eq_ofChars _ (by decide +kernel) (by decide +kernel) text
  let call : List Token := [.name "f", .opening, .number 3, .closing]
  have read :
      env.read "f(3)" = .ok ⟨call, call, [.number 3, .name "f"], .call "f" (.number 3)⟩ := by
    rw [Environment.read, tokens]
    decide +kernel
  have found : env.functions.find? "f" = some (.defined " " "t") := by decide +kernel
  have failed : (evaluate "f(3)").answer env = .error (.malformed .emptyInput) := by
    rw [answer_evaluate, read]
    change (evaluateTree (.call "f" (.number 3))).answer env = _
    rw [answer_evaluateTree_call, answer_evaluateTree_number]
    change (apply "f" 3).answer env = _
    rw [answer_apply_defined env found, answer_evaluate]
    rfl
  refine ⟨failed, ?_⟩
  obtain ⟨-, -, malformed, -⟩ := evaluate_error_origins env "f(3)"
  rcases malformed _ failed with unread | opened
  · rw [read] at unread
    cases unread
  · exact opened

end Environment

end SeriesCalculator
