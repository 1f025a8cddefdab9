import SeriesCalculator.Proofs.Evaluation.Agreement
import SeriesCalculator.Proofs.Reading.Names

/-!
# Reading under other ranks

The ranks of functions are asked for at one place only, where a function stands directly before
another one. Two arrangements of the same tokens under different ranks go through the same states,
up to the ranks that are kept on the stack, until one of them meets functions in the wrong order
(`Token.agree_reversePolish`). If neither does, the same is put out.
-/

namespace SeriesCalculator

/-- The fault of a text in which a function stands before one that is not of lower rank. -/
def ExpressionFault.Misordered (fault : ExpressionFault) : Prop :=
  ∃ outer inner, fault = .numberExpected outer inner

namespace Token

open ExpressionFault

/-- What waits, with the ranks of another table. -/
def Pending.reranked (rank? : String → Option Nat) : Pending → Pending
  | .operator op => .operator op
  | .function f _ => .function f ((rank? f).getD 0)
  | .group => .group

namespace Arrangement

/-- An arrangement with the ranks of another table. -/
def reranked (rank? : String → Option Nat) (s : Arrangement) : Arrangement :=
  { s with pending := s.pending.map (Pending.reranked rank?) }

section

variable (rank? : String → Option Nat) (pending : List Pending) (output : List Token)

theorem releaseFunctions_reranked :
    releaseFunctions (pending.map (Pending.reranked rank?)) output =
      (releaseFunctions pending output).map (List.map (Pending.reranked rank?)) id := by
  fun_induction releaseFunctions pending output with
  | case1 f rank pending output ih => exact ih
  | case2 pending output other =>
      cases pending with
      | nil => rfl
      | cons top pending =>
          cases top with
          | function f rank => exact (other f rank pending rfl).elim
          | operator op => rfl
          | group => rfl

theorem releaseOperators_reranked (op : Operator) :
    releaseOperators op (pending.map (Pending.reranked rank?)) output =
      (releaseOperators op pending output).map (List.map (Pending.reranked rank?)) id := by
  fun_induction releaseOperators op pending output with
  | case1 top pending output le ih =>
      simp only [List.map_cons, Pending.reranked, releaseOperators, if_pos le, ih]
  | case2 top pending output notLe =>
      simp only [List.map_cons, Pending.reranked, releaseOperators, if_neg notLe, Prod.map, id]
  | case3 pending output other =>
      cases pending with
      | nil => rfl
      | cons top pending =>
          cases top with
          | operator top => exact (other top pending rfl).elim
          | function f rank => rfl
          | group => rfl

theorem releaseGroup_reranked :
    releaseGroup (pending.map (Pending.reranked rank?)) output =
      (releaseGroup pending output).map (Prod.map (List.map (Pending.reranked rank?)) id) := by
  fun_induction releaseGroup pending output with
  | case1 => rfl
  | case2 => rfl
  | case3 op pending output ih => exact ih
  | case4 f rank pending output ih => exact ih

theorem releaseAll_reranked :
    releaseAll (pending.map (Pending.reranked rank?)) output = releaseAll pending output := by
  fun_induction releaseAll pending output with
  | case1 => rfl
  | case2 => rfl
  | case3 op pending output ih => exact ih
  | case4 f rank pending output ih => exact ih

theorem ended_reranked :
    ended (pending.map (Pending.reranked rank?)) output =
      (ended pending output).reranked rank? := by
  simp only [ended, reranked, releaseFunctions_reranked, Prod.map, id]

theorem finish_reranked (s : Arrangement) : (s.reranked rank?).finish = s.finish := by
  simp only [finish, reranked, releaseAll_reranked]

end

variable {rank? rank?' : String → Option Nat}

/-- A function waits in both arrangements, unless one of them finds it in the wrong place. -/
theorem agree_await (s : Arrangement) {f : String} {rank rank' : Nat}
    (ranked' : rank?' f = some rank') :
    Agree Misordered Misordered ((s.await f rank).map (reranked rank?'))
      ((s.reranked rank?').await f rank') := by
  have waits : Except.ok (reranked rank?' { s with pending := .function f rank :: s.pending }) =
      Except.ok (ε := ExpressionFault) { s.reranked rank?' with
        pending := .function f rank' :: (s.reranked rank?').pending } := by
    simp [reranked, Pending.reranked, ranked']
  obtain ⟨output, pending, afterValue⟩ := s
  cases pending with
  | nil => exact .of_eq waits
  | cons top pending =>
      cases top with
      | operator op => exact .of_eq waits
      | group => exact .of_eq waits
      | function outer outerRank =>
          simp only [await, reranked, List.map_cons, Pending.reranked]
          split
          · exact .left ⟨outer, f, rfl⟩ _
          · split
            · exact .right _ ⟨outer, f, rfl⟩
            · exact .of_eq waits

/-- One token has the same effect on both arrangements, apart from functions in the wrong order. -/
theorem agree_step (same : ∀ name, (rank? name).isSome = (rank?' name).isSome) (s : Arrangement)
    (t : Token) :
    Agree Misordered Misordered ((step rank? s t).map (reranked rank?'))
      (step rank?' (s.reranked rank?') t) := by
  obtain ⟨output, pending, afterValue⟩ := s
  cases t with
  | number value =>
      cases afterValue with
      | true => exact .same _
      | false => exact .of_eq (congrArg Except.ok (ended_reranked _ _ _).symm)
  | name name =>
      cases afterValue with
      | true => exact .same _
      | false =>
          have both := same name
          simp only [step, reranked, Bool.false_eq_true, if_false]
          cases ranked : rank? name with
          | none =>
              cases ranked' : rank?' name with
              | none => exact .of_eq (congrArg Except.ok (ended_reranked _ _ _).symm)
              | some rank' => simp [ranked, ranked'] at both
          | some rank =>
              cases ranked' : rank?' name with
              | none => simp [ranked, ranked'] at both
              | some rank' => exact agree_await ⟨output, pending, false⟩ ranked'
  | opening =>
      cases afterValue with
      | true => exact .same _
      | false => exact .same _
  | closing =>
      cases afterValue with
      | false => exact .same _
      | true =>
          simp only [step, reranked, Bool.not_true, Bool.false_eq_true, if_false,
            releaseGroup_reranked]
          cases releaseGroup pending output with
          | none => exact .same _
          | some released => exact .of_eq (congrArg Except.ok (ended_reranked _ _ _).symm)
  | operator op =>
      cases afterValue with
      | false => exact .same _
      | true =>
          simp only [step, reranked, Bool.not_true, Bool.false_eq_true, if_false,
            releaseOperators_reranked]
          exact .same _

end Arrangement

/-- Tables that know the same functions arrange tokens in the same order, or one of them finds
functions in the wrong order. -/
theorem agree_reversePolish {rank? rank?' : String → Option Nat}
    (same : ∀ name, (rank? name).isSome = (rank?' name).isSome) (tokens : List Token) :
    Agree Misordered Misordered (reversePolish rank? tokens) (reversePolish rank?' tokens) := by
  rw [reversePolish, reversePolish]
  split
  · exact .same _
  · have arranged := Agree.foldlM (Arrangement.reranked rank?') (Arrangement.agree_step same)
      tokens Arrangement.start
    change Agree Misordered Misordered
      (tokens.foldlM (Arrangement.step rank?) .start >>= fun s => s.finish)
      (tokens.foldlM (Arrangement.step rank?') .start >>= fun s => s.finish)
    refine arranged.bind_view ?_
    intro s
    exact .of_eq (s.finish_reranked rank?').symm

end Token

namespace Environment

/-- What is read does not depend on the ranks, unless functions stand in the wrong order for one of
the tables. -/
theorem agree_readTokens {env env' : Environment}
    (same : ∀ name, env.functions.contains name = env'.functions.contains name)
    (tokens : List Token) :
    Agree ExpressionFault.Misordered ExpressionFault.Misordered (env.readTokens tokens)
      (env'.readTokens tokens) := by
  have functions : env.functions.contains = env'.functions.contains := funext same
  simp only [readTokens, withProducts, treeOf, functions]
  refine Agree.bind (Token.agree_reversePolish ?_ _) ?_
  · intro name
    rw [FunctionTable.isSome_rank?, FunctionTable.isSome_rank?, same]
  · intro polish _ _
    exact .same _

end Environment

end SeriesCalculator
