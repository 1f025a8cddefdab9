import SeriesCalculator.Proofs.Evaluation.Unrelated
import SeriesCalculator.Proofs.Grammar.Substitution

/-!
# A calculation in place of its value

A variable may be bound to the value of some tokens, or the tokens may be put in parentheses in
its place: the value of the whole is the same. That the tokens are read alike is a matter of the
grammar. The evaluation then is by recursion on the tree. It comes to the tree of the tokens that
have been put in wherever it would look for the variable, each time in the same environment, and in
calls no function looks for it.
-/

namespace SeriesCalculator

/-- Reads a list of tokens and evaluates its tree. -/
def evaluateTokens (tokens : List Token) : Calculation Float := do
  let reading ← ofExcept (((← get).readTokens tokens).mapError Error.malformed)
  evaluateTree reading.tree

namespace Calculation

variable {env : Environment} {tokens : List Token}

theorem answer_evaluateTokens :
    answer (evaluateTokens tokens) env =
      (env.readTokens tokens).mapError Error.malformed >>= fun reading =>
        answer (evaluateTree reading.tree) env := by
  rw [evaluateTokens, answer_get_bind, answer_bind env (.ofExcept _), answer_ofExcept]

/-- Unless nothing is left of it without the blanks at its ends, a text is evaluated by its
tokens. -/
theorem answer_evaluate_eq_tokens {text : String} (rest : (Text.trim text.toList).isEmpty = false) :
    answer (evaluate text) env =
      answer (evaluateTokens (env.tokenize (Text.trim text.toList))) env := by
  rw [answer_evaluate, answer_evaluateTokens, Environment.read, if_neg (by simp [rest])]

theorem answer_evaluateTokens_of_parse {e : Expr}
    (parse : Grammar.Parse env.functions.rank? 0 (env.withProducts tokens) e) :
    answer (evaluateTokens tokens) env = answer (evaluateTree e) env := by
  rw [answer_evaluateTokens, Environment.readTokens_eq_ok_of_parse parse]
  rfl

theorem exists_parse_of_answer {value : Float}
    (h : answer (evaluateTokens tokens) env = .ok value) :
    ∃ e, Grammar.Parse env.functions.rank? 0 (env.withProducts tokens) e ∧
      answer (evaluateTree e) env = .ok value := by
  rw [answer_evaluateTokens] at h
  cases read : env.readTokens tokens with
  | error fault =>
      rw [read] at h
      cases h
  | ok reading =>
      rw [read] at h
      exact ⟨reading.tree, Environment.parse_of_readTokens read, h⟩

theorem answer_evaluateTokens_of_no_parse
    (none : ¬ ∃ e, Grammar.Parse env.functions.rank? 0 (env.withProducts tokens) e) :
    (answer (evaluateTokens tokens) env).toOption = .none := by
  cases result : answer (evaluateTokens tokens) env with
  | error error => rfl
  | ok value =>
      obtain ⟨e, parse, -⟩ := exists_parse_of_answer result
      exact (none ⟨e, parse⟩).elim

/-- Wherever the variable is looked up, the tree in its place is evaluated, and has this value. -/
theorem answer_evaluateTree_substitute {name : String} {sub : Expr} {value : Float}
    (unused : ∀ body ∈ env.functions.bodies, ¬ name.toList <:+: body.toList)
    (group : answer (evaluateTree sub) env = .ok value) {e : Expr}
    (free : env.functions.contains name = false) (named : e.WellNamed env.functions.contains) :
    answer (evaluateTree (e.substitute name sub)) env =
      answer (evaluateTree e) (env.setVariable name value) := by
  induction e with
  | number x => simp only [Expr.substitute, answer_evaluateTree_number]
  | «variable» n =>
      rw [Expr.substitute, answer_evaluateTree_variable]
      by_cases same : n = name
      · simp [same, group, Environment.setVariable]
      · simp only [if_neg same, answer_evaluateTree_variable, Environment.setVariable,
          Bindings.get?_insert]
  | call function argument ih =>
      have ne : function ≠ name := by
        rintro rfl
        exact Bool.false_ne_true (free.symm.trans named.1)
      have related := Environment.sameExcept_setVariable unused value
      have calls (x : Float) : answer (apply function x) env =
          answer (apply function x) (env.setVariable name value) :=
        ((Environment.simulation_sameExcept name).apply related ne x).eq
      simp only [Expr.substitute, answer_evaluateTree_call, ih named.2, calls]
  | binary op left right ihLeft ihRight =>
      simp only [Expr.substitute, answer_evaluateTree_binary, ihLeft named.1, ihRight named.2]

end Calculation

namespace Environment

open Calculation

/-- Tokens with a value may be put in parentheses wherever a variable stands that has this value:
the whole keeps its value, and where it has none it gets none. The name of the variable stands in no
text of a function and is not the name of one. -/
theorem evaluateTokens_substitute {env : Environment} {name : String} {inner : List Token}
    {value : Float} (free : env.functions.contains name = false)
    (unused : ∀ body ∈ env.functions.bodies, ¬ name.toList <:+: body.toList)
    (h : (evaluateTokens inner).answer env = .ok value) (tokens : List Token) :
    ((evaluateTokens (Token.substitute name inner tokens)).answer env).toOption =
      ((evaluateTokens tokens).answer (env.setVariable name value)).toOption := by
  obtain ⟨sub, group, subValue⟩ := exists_parse_of_answer h
  have unranked : env.functions.rank? name = none := by
    rw [← Option.not_isSome_iff_eq_none, FunctionTable.isSome_rank?, free]
    exact Bool.false_ne_true
  have products : env.withProducts (Token.substitute name inner tokens) =
      Token.substitute name (env.withProducts inner) (env.withProducts tokens) :=
    Token.withProducts_substitute free
  by_cases expression : ∃ e, Grammar.Parse env.functions.rank? 0 (env.withProducts tokens) e
  · obtain ⟨e, parse⟩ := expression
    have parse' := Grammar.Parse.substitute unranked group parse
    have named : e.WellNamed env.functions.contains := parse.wellNamed env.functions.isSome_rank?
    have put : answer (evaluateTokens (Token.substitute name inner tokens)) env =
        answer (evaluateTree (e.substitute name sub)) env :=
      answer_evaluateTokens_of_parse (products ▸ parse')
    have bound : answer (evaluateTokens tokens) (env.setVariable name value) =
        answer (evaluateTree e) (env.setVariable name value) :=
      answer_evaluateTokens_of_parse parse
    rw [put, bound, answer_evaluateTree_substitute unused subValue free named]
  · have expression' : ¬ ∃ e, Grammar.Parse env.functions.rank? 0
        (env.withProducts (Token.substitute name inner tokens)) e := by
      rw [products]
      rintro ⟨e, parse⟩
      obtain ⟨e', parse', -⟩ := (Grammar.parse_substitute_iff unranked group).mp parse
      exact expression ⟨e', parse'⟩
    have failed : (answer (evaluateTokens tokens) (env.setVariable name value)).toOption = none :=
      answer_evaluateTokens_of_no_parse expression
    rw [answer_evaluateTokens_of_no_parse expression', failed]

/-- A call of a function at a sum, which stands for the argument. -/
theorem evaluateTokens_substitute_argument :
    let env : Environment :=
      { initial .default with functions := FunctionTable.builtins.push "f" (.defined "2*t" "t") }
    let sum : List Token := [.number 1, .operator .add, .number 2]
    let tokens : List Token := [.name "f", .name "x", .name "x"]
    (evaluateTokens sum).answer env = .ok 3 ∧
    ((evaluateTokens (Token.substitute "x" sum tokens)).answer env).toOption =
      ((evaluateTokens tokens).answer (env.setVariable "x" 3)).toOption := by
  intro env sum tokens
  have free : env.functions.contains "x" = false := by decide +kernel
  have unused : ∀ body ∈ env.functions.bodies, ¬ "x".toList <:+: body.toList := by decide +kernel
  have three : (evaluateTokens sum).answer env = .ok 3 := by decide +kernel
  exact ⟨three, evaluateTokens_substitute free unused three tokens⟩

end Environment

end SeriesCalculator
