import SeriesCalculator.Proofs.Grammar.Basic
import SeriesCalculator.Proofs.Token.ReversePolish
import SeriesCalculator.Session

/-!
# The arrangement recognises the grammar

The stack that brings tokens into reverse Polish order accepts exactly the
expressions of the grammar, and the order that it produces is the flattening of
their parse.

One half follows the derivation of a parse. After an operand all that waited for
it is put out (`ParseOperand.foldlM_step`); after an expression the operators of
its right edge still wait, and putting them out completes the flattened tree
(`Parse.foldlM_step`). The other half goes through the tokens from the last one:
what a stack still accepts completes it to an expression, and so it does together
with the token before (`completes_of_step`). Since the order determines the tree,
a parse is unique.
-/

namespace SeriesCalculator

namespace Grammar

open Token Token.Arrangement

variable {rank? : String → Option Nat}

/-- An operand may stand where the arrangement waits for one: directly after a function
only if it does not begin with a function of the same or of a higher rank. -/
def Fits (rank? : String → Option Nat) (pending : List Pending) (tokens : List Token) : Prop :=
  ∀ f rank rest, pending = .function f rank :: rest → MayPrecede rank? rank tokens

mutual

/-- An operand is put out together with the functions that waited for it. -/
theorem ParseOperand.foldlM_step {tokens : List Token} {e : Expr} {pending : List Pending}
    (output : List Token) (fits : Fits rank? pending tokens) :
    ParseOperand rank? tokens e →
      tokens.foldlM (step rank?) ⟨output, pending, false⟩ =
        .ok (ended pending (e.polish.reverse ++ output))
  | .number value => rfl
  | .variable free => by
      simp only [List.foldlM_cons, List.foldlM_nil, step, free]
      rfl
  | .group inner => by
      have below : Below 0 (.group :: pending) := trivial
      obtain ⟨ops, output', run, -, flat⟩ := inner.foldlM_step output below
      have opened : step rank? ⟨output, pending, false⟩ .opening =
          .ok ⟨output, .group :: pending, false⟩ := rfl
      rw [List.cons_append, List.foldlM_cons, opened]
      refine (foldlM_append_of_ok run).trans ?_
      rw [List.foldlM_cons, step_closing, flat]
      rfl
  | @ParseOperand.call _ f rank tokens e ranked before argument => by
      have waits := step_function ranked
        (fun outer outerRank rest h => fits outer outerRank rest h f rank rfl ranked) output
      have argumentFits : Fits rank? (.function f rank :: pending) tokens := by
        rintro g inner rest ⟨⟩
        exact before
      rw [List.foldlM_cons, waits]
      refine (argument.foldlM_step output argumentFits).trans ?_
      rw [Expr.polish, List.reverse_append]
      rfl

/-- After an expression the operators of its right edge wait, the innermost first.
Putting them out completes the flattened tree. -/
theorem Parse.foldlM_step {p : Nat} {tokens : List Token} {e : Expr} {pending : List Pending}
    (output : List Token) (below : Below p pending) :
    Parse rank? p tokens e →
      ∃ (ops : List Operator) (output' : List Token),
        tokens.foldlM (step rank?) ⟨output, pending, false⟩ =
          .ok ⟨output', ops.map .operator ++ pending, true⟩ ∧
        (∀ op ∈ ops, p ≤ op.precedence) ∧
        (ops.map Token.operator).reverse ++ output' = e.polish.reverse ++ output
  | .operand h => by
      have fits : Fits rank? pending tokens := by
        rintro f rank rest rfl
        exact below.elim
      refine ⟨[], e.polish.reverse ++ output, ?_, by simp, rfl⟩
      rw [h.foldlM_step output fits, ended, below.releaseFunctions_eq]
      rfl
  | @Parse.binary _ _ left right op a b le hl hr => by
      have belowOp : Below op.precedence pending := below.mono le
      obtain ⟨ops, output', runLeft, strong, flatLeft⟩ := hl.foldlM_step output belowOp
      have belowRight : Below (op.precedence + 1) (.operator op :: pending) := Nat.lt_succ_self _
      obtain ⟨ops', output'', runRight, strong', flatRight⟩ :=
        hr.foldlM_step (a.polish.reverse ++ output) belowRight
      refine ⟨ops' ++ [op], output'', ?_, ?_, ?_⟩
      · refine (foldlM_append_of_ok runLeft).trans ?_
        rw [List.foldlM_cons, step_operator strong belowOp, flatLeft]
        refine Eq.trans runRight ?_
        rw [List.map_append, List.append_assoc]
        rfl
      · intro other mem
        rcases List.mem_append.mp mem with inRight | isOp
        · have := strong' other inRight
          omega
        · obtain rfl := List.mem_singleton.mp isOp
          exact le
      · rw [List.map_append, List.reverse_append, List.append_assoc, flatRight]
        simp [Expr.polish]

end

/-- The tokens of a parse are brought into the reverse Polish order of its tree. -/
theorem Parse.reversePolish_eq {tokens : List Token} {e : Expr} (h : Parse rank? 0 tokens e) :
    reversePolish rank? tokens = .ok e.polish := by
  have below : Below 0 [] := trivial
  obtain ⟨ops, output, run, -, flat⟩ := h.foldlM_step [] below
  have nonempty : tokens ≠ [] := by
    rintro rfl
    cases congrArg Token.Arrangement.afterValue (Except.ok.inj run)
  have released : releaseAll (ops.map .operator) output = .ok e.polish := by
    rw [releaseAll_map, flat, List.append_nil, List.reverse_reverse]
  rw [reversePolish, if_neg (by simpa using nonempty)]
  change (tokens.foldlM (step rank?) ⟨[], [], false⟩ >>= fun s => s.finish) = _
  rw [run, List.append_nil]
  exact released

/-- What may follow a value while some groups are open: further operands, each after
an operator, and in the end a closing parenthesis for every group. -/
inductive Continuation (rank? : String → Option Nat) : Nat → List Token → Prop
  | done : Continuation rank? 0 []
  | closing {groups : Nat} {rest : List Token} (h : Continuation rank? groups rest) :
      Continuation rank? (groups + 1) (.closing :: rest)
  | operator {groups : Nat} {tokens rest : List Token} (op : Operator)
      (operand : Operand rank? tokens) (h : Continuation rank? groups rest) :
      Continuation rank? groups (.operator op :: (tokens ++ rest))

theorem Continuation.expression {tokens rest : List Token} (h : Continuation rank? 0 rest)
    (front : Expression rank? tokens) : Expression rank? (tokens ++ rest) := by
  generalize groupsEq : 0 = groups at h
  induction h generalizing tokens with
  | done => simpa using front
  | closing => cases groupsEq
  | operator op operand _ ih =>
      have := ih (.binary op front operand) groupsEq
      simpa only [List.append_assoc, List.cons_append] using this

/-- A continuation of an open group completes an expression inside of the group. -/
theorem Continuation.split {groups : Nat} {rest tokens : List Token}
    (h : Continuation rank? (groups + 1) rest) (front : Expression rank? tokens) :
    ∃ inner after, rest = inner ++ .closing :: after ∧ Expression rank? (tokens ++ inner) ∧
      Continuation rank? groups after := by
  generalize groupsEq : groups + 1 = openGroups at h
  induction h generalizing tokens with
  | done => cases groupsEq
  | closing h =>
      cases groupsEq
      exact ⟨[], _, rfl, by simpa using front, h⟩
  | @operator _ operandTokens _ op operand _ ih =>
      obtain ⟨inner, after, rfl, expression, h⟩ := ih (.binary op front operand) groupsEq
      refine ⟨.operator op :: (operandTokens ++ inner), after, by simp, ?_, h⟩
      simpa only [List.append_assoc, List.cons_append] using expression

/-- What completes an arrangement. After a value it is a continuation of the open groups;
in front of a value it is an operand that fits, and then such a continuation. -/
def Completes (rank? : String → Option Nat) (s : Token.Arrangement) (tokens : List Token) : Prop :=
  if s.afterValue then Continuation rank? (openGroups s.pending) tokens
  else ∃ operand rest, tokens = operand ++ rest ∧ Operand rank? operand ∧
    Fits rank? s.pending operand ∧ Continuation rank? (openGroups s.pending) rest

theorem completes_ended_iff {pending : List Pending} {output tokens : List Token} :
    Completes rank? (ended pending output) tokens ↔
      Continuation rank? (openGroups pending) tokens := by
  simp only [Completes, ended, if_true, openGroups_releaseFunctions]

theorem completes_waiting_iff {pending : List Pending} {output tokens : List Token} :
    Completes rank? ⟨output, pending, false⟩ tokens ↔
      ∃ operand rest, tokens = operand ++ rest ∧ Operand rank? operand ∧
        Fits rank? pending operand ∧ Continuation rank? (openGroups pending) rest := by
  simp only [Completes, Bool.false_eq_true, if_false]

/-- A value of one token fits everywhere. -/
theorem fits_single {pending : List Pending} {token : Token}
    (value : ∀ name, token = .name name → rank? name = none) : Fits rank? pending [token] := by
  intro f rank rest _ inner innerRank head ranked
  have := value inner (Option.some.inj head)
  rw [ranked] at this
  cases this

section

variable {pending : List Pending} {output output' tokens : List Token}

theorem completes_value {token : Token} (operand : Operand rank? [token])
    (value : ∀ name, token = .name name → rank? name = none)
    (rest : Completes rank? (ended pending output') tokens) :
    Completes rank? ⟨output, pending, false⟩ (token :: tokens) := by
  rw [completes_ended_iff] at rest
  exact completes_waiting_iff.mpr ⟨[token], tokens, rfl, operand, fits_single value, rest⟩

/-- A function and the operand that fits behind it are an operand, and the function has been
tested against the one before it. -/
theorem completes_function {f : String} {rank : Nat} (ranked : rank? f = some rank)
    (lower : ∀ outer outerRank below, pending = .function outer outerRank :: below →
      rank < outerRank)
    (rest : Completes rank? ⟨output', .function f rank :: pending, false⟩ tokens) :
    Completes rank? ⟨output, pending, false⟩ (.name f :: tokens) := by
  obtain ⟨operand, after, rfl, ho, fits, hc⟩ := completes_waiting_iff.mp rest
  have precedes : MayPrecede rank? rank operand := fits f rank pending rfl
  refine completes_waiting_iff.mpr
    ⟨.name f :: operand, after, rfl, .call ranked precedes ho, ?_, hc⟩
  intro outer outerRank below pendingEq inner innerRank head innerRanked
  cases head
  rw [ranked] at innerRanked
  cases innerRanked
  exact lower outer outerRank below pendingEq

/-- The continuation of the group that has been opened reaches to its end, and with it the group
is an operand. -/
theorem completes_opening
    (rest : Completes rank? ⟨output', .group :: pending, false⟩ tokens) :
    Completes rank? ⟨output, pending, false⟩ (.opening :: tokens) := by
  obtain ⟨operand, rest, rfl, ho, -, hc⟩ := completes_waiting_iff.mp rest
  obtain ⟨inner, after, rfl, expression, hc⟩ := hc.split (.operand ho)
  refine completes_waiting_iff.mpr
    ⟨.opening :: (operand ++ inner) ++ [.closing], after, by simp, .group expression, ?_, hc⟩
  intro f rank below _ inner innerRank head
  cases head

theorem completes_operator {op : Operator}
    (rest : Completes rank? ⟨output', .operator op :: pending, false⟩ tokens) :
    Continuation rank? (openGroups pending) (.operator op :: tokens) := by
  obtain ⟨operand, after, rfl, ho, -, hc⟩ := completes_waiting_iff.mp rest
  exact .operator op ho hc

end

/-- One step back: what completes the arrangement after a token completes the one before
it together with the token. -/
theorem completes_of_step {s t : Token.Arrangement} {token : Token} {tokens : List Token}
    (h : step rank? s token = .ok t) (rest : Completes rank? t tokens) :
    Completes rank? s (token :: tokens) := by
  obtain ⟨output, pending, afterValue⟩ := s
  cases afterValue with
  | false =>
      cases token with
      | number value =>
          cases h
          exact completes_value (.number value) nofun rest
      | name name =>
          cases ranked : rank? name with
          | none =>
              simp only [step, ranked, Bool.false_eq_true, if_false] at h
              cases h
              refine completes_value (.variable ranked) ?_ rest
              intro other same
              cases same
              exact ranked
          | some rank =>
              simp only [step, ranked, Bool.false_eq_true, if_false] at h
              obtain ⟨lower, rfl⟩ := of_await_eq_ok h
              exact completes_function ranked lower rest
      | opening =>
          cases h
          exact completes_opening rest
      | closing => cases h
      | operator op => cases h
  | true =>
      simp only [Completes, if_true]
      cases token with
      | number value => cases h
      | name name => cases h
      | opening => cases h
      | closing =>
          simp only [step, Bool.not_true, Bool.false_eq_true, if_false] at h
          split at h
          · cases h
          · rename_i pending' output' released
            cases h
            rw [completes_ended_iff] at rest
            rw [openGroups_of_releaseGroup released]
            exact .closing rest
      | operator op =>
          cases h
          have released := openGroups_releaseOperators op pending output
          rw [← released]
          exact completes_operator rest

theorem completes_of_accepts {s : Token.Arrangement} {tokens : List Token}
    (h : Accepts rank? s tokens) : Completes rank? s tokens := by
  induction tokens generalizing s with
  | nil =>
      obtain ⟨t, polish, run, finished⟩ := h
      cases run
      rw [finish] at finished
      split at finished
      · rename_i afterValue
        rw [Completes, if_pos afterValue, openGroups_of_releaseAll finished]
        exact .done
      · cases finished
  | cons token tokens ih =>
      obtain ⟨t, first, rest⟩ := h.cons
      exact completes_of_step first (ih rest)

theorem accepts_of_reversePolish {tokens polish : List Token}
    (h : reversePolish rank? tokens = .ok polish) : Accepts rank? start tokens := by
  rw [reversePolish] at h
  split at h
  · cases h
  · cases run : tokens.foldlM (step rank?) start with
    | error fault =>
        rw [run] at h
        cases h
    | ok t =>
        rw [run] at h
        exact ⟨t, polish, run, h⟩

/-- At the start nothing waits and no group is open. -/
theorem expression_of_completes {tokens : List Token} (h : Completes rank? start tokens) :
    Expression rank? tokens := by
  obtain ⟨operand, rest, rfl, ho, -, hc⟩ := completes_waiting_iff.mp h
  exact hc.expression (.operand ho)

/-- Only expressions are brought into reverse Polish order. -/
theorem expression_of_reversePolish {tokens polish : List Token}
    (h : reversePolish rank? tokens = .ok polish) : Expression rank? tokens :=
  expression_of_completes (completes_of_accepts (accepts_of_reversePolish h))

/-- The tree of a token list is the only one. -/
theorem Parse.unique {tokens : List Token} {a b : Expr} (ha : Parse rank? 0 tokens a)
    (hb : Parse rank? 0 tokens b) : a = b := by
  have same : a.polish = b.polish :=
    Except.ok.inj (ha.reversePolish_eq.symm.trans hb.reversePolish_eq)
  have treeA := Expr.ofReversePolish_polish (ha.wellNamed fun _ => rfl)
  have treeB := Expr.ofReversePolish_polish (hb.wellNamed fun _ => rfl)
  rw [same, treeB] at treeA
  exact (Except.ok.inj treeA).symm

end Grammar

namespace Environment

variable {env : Environment}

theorem treeOf_polish_of_parse {tokens : List Token} {e : Expr}
    (h : Grammar.Parse env.functions.rank? 0 tokens e) : env.treeOf e.polish = .ok e :=
  Expr.ofReversePolish_polish (h.wellNamed env.functions.isSome_rank?)

/-- Arranging tokens and building the tree gives the parse of the tokens. -/
theorem reversePolish_bind_treeOf_eq_ok_iff {tokens : List Token} {e : Expr} :
    (env.reversePolish tokens >>= env.treeOf) = .ok e ↔
      Grammar.Parse env.functions.rank? 0 tokens e := by
  have ok_of_parse {other : Expr} (h : Grammar.Parse env.functions.rank? 0 tokens other) :
      (env.reversePolish tokens >>= env.treeOf) = .ok other := by
    have arranged : env.reversePolish tokens = .ok other.polish := h.reversePolish_eq
    rw [arranged]
    exact treeOf_polish_of_parse h
  constructor
  · intro h
    cases arranged : env.reversePolish tokens with
    | error fault =>
        rw [arranged] at h
        cases h
    | ok polish =>
        obtain ⟨other, parse⟩ := (Grammar.expression_of_reversePolish arranged).exists_parse
        have same : Except.ok other = Except.ok e := (ok_of_parse parse).symm.trans h
        cases same
        exact parse
  · exact ok_of_parse

/-- Arrangement accepts exactly the expressions. The order of an expression gives a tree, and
this tree is its only parse. Every other token list is reported as malformed. -/
theorem reversePolish_recognizes_grammar (env : Environment) (tokens : List Token) :
    ((∃ polish, env.reversePolish tokens = .ok polish) ↔
      Grammar.Expression env.functions.rank? tokens) ∧
    (Grammar.Expression env.functions.rank? tokens →
      ∃ polish e, env.reversePolish tokens = .ok polish ∧ env.treeOf polish = .ok e ∧
        Grammar.Parse env.functions.rank? 0 tokens e ∧
        ∀ other, Grammar.Parse env.functions.rank? 0 tokens other → other = e) ∧
    (¬ Grammar.Expression env.functions.rank? tokens →
      ∃ fault, env.reversePolish tokens = .error fault ∧
        (Command.reversePolish tokens).run.run env =
          (.polish (.error (.malformed fault)), env)) := by
  have accepted_iff : (∃ polish, env.reversePolish tokens = .ok polish) ↔
      Grammar.Expression env.functions.rank? tokens := by
    constructor
    · rintro ⟨polish, h⟩
      exact Grammar.expression_of_reversePolish h
    · intro h
      obtain ⟨e, parse⟩ := h.exists_parse
      exact ⟨e.polish, parse.reversePolish_eq⟩
  refine ⟨accepted_iff, ?_, ?_⟩
  · intro h
    obtain ⟨e, parse⟩ := h.exists_parse
    exact ⟨e.polish, e, parse.reversePolish_eq, treeOf_polish_of_parse parse, parse,
      fun _ other => other.unique parse⟩
  · intro h
    cases arranged : env.reversePolish tokens with
    | ok polish => exact absurd (accepted_iff.mp ⟨polish, arranged⟩) h
    | error fault =>
        refine ⟨fault, rfl, ?_⟩
        simp only [Command.run]
        change (Answer.polish ((env.reversePolish tokens).mapError Error.malformed), env) = _
        rw [arranged]
        rfl

/-- The cosine may stand before the sine, which has the lower rank, but not behind it. -/
theorem bareFunctions_recognized :
    let env := initial .default
    let rank? := env.functions.rank?
    (∃ polish e, env.reversePolish [.name "cos", .name "sin", .number 0] = .ok polish ∧
      env.treeOf polish = .ok e ∧
      Grammar.Parse rank? 0 [.name "cos", .name "sin", .number 0] e ∧
      ∀ other, Grammar.Parse rank? 0 [.name "cos", .name "sin", .number 0] other → other = e) ∧
    ∃ fault, env.reversePolish [.name "sin", .name "cos", .number 0] = .error fault ∧
      (Command.reversePolish [.name "sin", .name "cos", .number 0]).run.run env =
        (.polish (.error (.malformed fault)), env) := by
  intro env rank?
  have falling := reversePolish_recognizes_grammar env [.name "cos", .name "sin", .number 0]
  have rising := reversePolish_recognizes_grammar env [.name "sin", .name "cos", .number 0]
  have refused : env.reversePolish [.name "sin", .name "cos", .number 0] =
      .error (.numberExpected "sin" "cos") := rfl
  constructor
  · exact falling.2.1 (falling.1.mp ⟨[.number 0, .name "sin", .name "cos"], rfl⟩)
  · apply rising.2.2
    intro expression
    obtain ⟨polish, ok⟩ := rising.1.mpr expression
    rw [refused] at ok
    cases ok

end Environment

end SeriesCalculator
