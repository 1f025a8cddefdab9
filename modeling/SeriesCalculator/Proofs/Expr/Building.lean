import SeriesCalculator.Proofs.Expr.Polish
import SeriesCalculator.Session

/-!
# Building undoes flattening

While tokens in reverse Polish order are read, the trees on the stack, flattened from the bottom to
the top, are the tokens read so far (`Holds.step`), and no other stack can be left
(`foldlM_build_eq_ok_iff`). One tree is left exactly if the tokens are those of this tree
(`ofReversePolish_eq_ok_iff`).

All other lists are refused. Where the reading stops and which fault is reported depends only on the
trees in front of that place and on their number (`ofReversePolish_eq_error_iff`).
-/

namespace SeriesCalculator

namespace Expr

variable {isFunction : String → Bool} {stack stack' : List Expr} {tokens front : List Token}
  {t : Token} {fault : ExpressionFault}

/-- The tokens of a stack of trees from the bottom to the top. -/
def flatten (stack : List Expr) : List Token :=
  stack.reverse.flatMap polish

@[simp] theorem flatten_nil : flatten [] = [] := rfl

@[simp] theorem flatten_cons (e : Expr) (stack : List Expr) :
    flatten (e :: stack) = flatten stack ++ e.polish := by
  simp [flatten]

/-- A stack holds what has been read: its trees use names as the table of functions has them, and
flattened they are the tokens. -/
structure Holds (isFunction : String → Bool) (stack : List Expr) (tokens : List Token) : Prop where
  wellNamed : ∀ e ∈ stack, e.WellNamed isFunction
  flatten_eq : flatten stack = tokens

theorem holds_nil : Holds isFunction [] [] :=
  ⟨nofun, rfl⟩

theorem holds_singleton_iff {e : Expr} :
    Holds isFunction [e] tokens ↔ e.WellNamed isFunction ∧ e.polish = tokens := by
  constructor
  · rintro ⟨named, flat⟩
    exact ⟨named e List.mem_cons_self, by simpa using flat⟩
  · rintro ⟨named, flat⟩
    exact ⟨by simpa using named, by simpa using flat⟩

/-- One more token is read. -/
theorem Holds.step (holds : Holds isFunction stack front)
    (read : build isFunction stack t = .ok stack') : Holds isFunction stack' (front ++ [t]) := by
  obtain ⟨named, rfl⟩ := holds
  cases t with
  | number value =>
      cases read
      exact ⟨List.forall_mem_cons.mpr ⟨trivial, named⟩, by simp [polish]⟩
  | name name =>
      simp only [build] at read
      split at read
      · rename_i function
        cases stack with
        | nil => cases read
        | cons argument stack =>
            cases read
            obtain ⟨first, others⟩ := List.forall_mem_cons.mp named
            exact ⟨List.forall_mem_cons.mpr ⟨⟨function, first⟩, others⟩, by simp [polish]⟩
      · rename_i free
        cases read
        exact ⟨List.forall_mem_cons.mpr ⟨Bool.eq_false_iff.mpr free, named⟩, by simp [polish]⟩
  | operator op =>
      rcases stack with - | ⟨right, - | ⟨left, stack⟩⟩
      · cases read
      · cases read
      · cases read
        obtain ⟨second, others⟩ := List.forall_mem_cons.mp named
        obtain ⟨first, others⟩ := List.forall_mem_cons.mp others
        exact ⟨List.forall_mem_cons.mpr ⟨⟨first, second⟩, others⟩, by simp [polish]⟩
  | opening => cases read
  | closing => cases read

/-- Many more tokens are read. -/
theorem Holds.run (holds : Holds isFunction stack front)
    (read : tokens.foldlM (build isFunction) stack = .ok stack') :
    Holds isFunction stack' (front ++ tokens) := by
  induction tokens generalizing stack front with
  | nil =>
      cases read
      simpa using holds
  | cons t tokens ih =>
      obtain ⟨next, first, rest⟩ := foldlM_cons_eq_ok_iff.mp read
      simpa using ih (holds.step first) rest

theorem Holds.foldlM_build_eq (holds : Holds isFunction stack tokens) :
    tokens.foldlM (build isFunction) [] = .ok stack := by
  obtain ⟨named, rfl⟩ := holds
  induction stack with
  | nil => rfl
  | cons e stack ih =>
      obtain ⟨first, others⟩ := List.forall_mem_cons.mp named
      rw [flatten_cons, foldlM_append_of_ok (ih others)]
      exact foldlM_build_polish first stack

/-- The stack that is left holds the tokens, and no other one does. -/
theorem foldlM_build_eq_ok_iff :
    tokens.foldlM (build isFunction) [] = .ok stack ↔ Holds isFunction stack tokens := by
  constructor
  · intro run
    exact holds_nil.run run
  · intro holds
    exact holds.foldlM_build_eq

/-- A tree is built from its own tokens and from no others. -/
theorem ofReversePolish_eq_ok_iff {e : Expr} :
    ofReversePolish isFunction tokens = .ok e ↔ e.WellNamed isFunction ∧ e.polish = tokens := by
  constructor
  · intro built
    obtain ⟨stack, run, last⟩ := bind_eq_ok_iff.mp built
    have read := foldlM_build_eq_ok_iff.mp run
    rcases stack with - | ⟨e, - | ⟨_, _⟩⟩
    · cases last
    · cases last
      exact holds_singleton_iff.mp read
    · cases last
  · rintro ⟨named, rfl⟩
    exact ofReversePolish_polish named

/-- The lists of tokens that are refused, each with its fault: behind some trees stands a parenthesis,
or an operator and there are fewer than two of them; a function is the first token; or the tokens are
those of no tree or of several. -/
inductive Refused (isFunction : String → Bool) : List Token → ExpressionFault → Prop
  | parenthesis {stack : List Expr} {front rest : List Token} {t : Token}
      (read : Holds isFunction stack front) (parenthesis : t = .opening ∨ t = .closing) :
      Refused isFunction (front ++ t :: rest) .strayParenthesis
  | argument {name : String} {rest : List Token} (function : isFunction name = true) :
      Refused isFunction (.name name :: rest) (.argumentMissing name)
  | operand {stack : List Expr} {front rest : List Token} {op : Operator}
      (read : Holds isFunction stack front) (few : stack.length < 2) :
      Refused isFunction (front ++ .operator op :: rest) .operandMissing
  | values {stack : List Expr} {tokens : List Token} (read : Holds isFunction stack tokens)
      (notOne : stack.length ≠ 1) : Refused isFunction tokens .notOneValue

/-- Reading stops at a token. -/
theorem Holds.refused (read : Holds isFunction stack front)
    (stop : build isFunction stack t = .error fault) (rest : List Token) :
    Refused isFunction (front ++ t :: rest) fault := by
  cases t with
  | number value => cases stop
  | name name =>
      simp only [build] at stop
      split at stop
      · rename_i function
        cases stack with
        | nil =>
            cases stop
            obtain rfl : [] = front := read.flatten_eq
            exact .argument function
        | cons argument stack => cases stop
      · cases stop
  | operator op =>
      rcases stack with - | ⟨right, - | ⟨left, stack⟩⟩
      · cases stop
        exact .operand read (by simp)
      · cases stop
        exact .operand read (by simp)
      · cases stop
  | opening =>
      cases stop
      exact .parenthesis read (.inl rfl)
  | closing =>
      cases stop
      exact .parenthesis read (.inr rfl)

/-- What is read after a token at which reading has stopped does not count. -/
theorem Holds.ofReversePolish_eq_error (read : Holds isFunction stack front)
    (stop : build isFunction stack t = .error fault) (rest : List Token) :
    ofReversePolish isFunction (front ++ t :: rest) = .error fault := by
  have run := foldlM_eq_error_iff.mpr ⟨front, t, rest, stack, rfl, read.foldlM_build_eq, stop⟩
  rw [ofReversePolish, run]
  rfl

/-- A list of tokens is refused with the fault of the place where reading it stops. -/
theorem ofReversePolish_eq_error_iff :
    ofReversePolish isFunction tokens = .error fault ↔ Refused isFunction tokens fault := by
  constructor
  · intro failed
    rcases of_bind_eq_error failed with stopped | ⟨stack, run, last⟩
    · obtain ⟨front, t, rest, stack, rfl, run, stop⟩ := foldlM_eq_error_iff.mp stopped
      exact (foldlM_build_eq_ok_iff.mp run).refused stop rest
    · have read := foldlM_build_eq_ok_iff.mp run
      rcases stack with - | ⟨e, - | ⟨_, _⟩⟩
      · cases last
        exact .values read (by simp)
      · cases last
      · cases last
        exact .values read (by simp)
  · intro refused
    cases refused with
    | parenthesis read parenthesis =>
        refine read.ofReversePolish_eq_error ?_ _
        rcases parenthesis with rfl | rfl <;> rfl
    | argument function =>
        refine holds_nil.ofReversePolish_eq_error ?_ _
        simp only [build, function, if_true]
    | @operand stack _ _ _ read few =>
        refine read.ofReversePolish_eq_error ?_ _
        rcases stack with - | ⟨right, - | ⟨left, stack⟩⟩
        · rfl
        · rfl
        · rw [List.length_cons, List.length_cons] at few
          omega
    | @values stack _ read notOne =>
        rw [ofReversePolish, read.foldlM_build_eq]
        rcases stack with - | ⟨e, - | ⟨_, _⟩⟩
        · rfl
        · simp at notOne
        · rfl

end Expr

namespace Environment

/-- A tree is built exactly from the tokens that it is flattened into, if its variables are no functions
and its calls are calls of functions. All other tokens are reported as malformed, with the fault of the
place where reading them stops. -/
theorem treeOf_inverts_polish (env : Environment) (tokens : List Token) :
    (∀ e, env.treeOf tokens = .ok e ↔
      e.WellNamed env.functions.contains ∧ e.polish = tokens) ∧
    (∀ fault, env.treeOf tokens = .error fault ↔
      Expr.Refused env.functions.contains tokens fault) ∧
    ((¬ ∃ e : Expr, e.WellNamed env.functions.contains ∧ e.polish = tokens) →
      ∃ fault, env.treeOf tokens = .error fault ∧
        (Command.evaluatePolish tokens).run.run env =
          (.tree (.error (.malformed fault)), env)) := by
  have built (e : Expr) : env.treeOf tokens = .ok e ↔
      e.WellNamed env.functions.contains ∧ e.polish = tokens := Expr.ofReversePolish_eq_ok_iff
  refine ⟨built, fun fault => Expr.ofReversePolish_eq_error_iff, ?_⟩
  intro other
  cases result : env.treeOf tokens with
  | ok e => exact (other ⟨e, (built e).mp result⟩).elim
  | error fault =>
      refine ⟨fault, rfl, ?_⟩
      simp only [Command.run, Command.evaluateTokens, StateT.run_bind, StateT.run_get, pure_bind,
        result]
      rfl

/-- The sine of a quotient that lacks an operand is no tree. -/
theorem treeOf_inverts_polish_quotient :
    let env := initial .default
    let tokens : List Token := [.number 1, .operator .divide, .name "sin"]
    (¬ ∃ e : Expr, e.WellNamed env.functions.contains ∧ e.polish = tokens) ∧
      ∃ fault, env.treeOf tokens = .error fault ∧
        (Command.evaluatePolish tokens).run.run env =
          (.tree (.error (.malformed fault)), env) := by
  intro env tokens
  obtain ⟨built, -, other⟩ := treeOf_inverts_polish env tokens
  have refused : env.treeOf tokens = .error .operandMissing := rfl
  have noTree : ¬ ∃ e : Expr, e.WellNamed env.functions.contains ∧ e.polish = tokens := by
    rintro ⟨e, tree⟩
    rw [(built e).mpr tree] at refused
    cases refused
  exact ⟨noTree, other noTree⟩

end Environment

end SeriesCalculator
