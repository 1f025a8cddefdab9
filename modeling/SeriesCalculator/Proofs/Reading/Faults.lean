import SeriesCalculator.Proofs.Reading.Names

/-!
# What reading leaves to evaluation

Reading finds out everything that can be wrong with an expression. The names of the tokens are
known names, and those that are no functions have become variables, so that evaluation finds every
variable bound and every function there (`definedIn_of_readTokens`). The three faults that
evaluation could report besides are never reported by reading itself (`not_ofEvaluation_of_read`).
-/

namespace SeriesCalculator

/-- The faults of an evaluation: a variable is not bound, a function does not exist, or a value is
missing. -/
def ExpressionFault.OfEvaluation : ExpressionFault → Prop
  | unboundVariable _ | unknownFunction _ | noValue => True
  | _ => False

namespace Token

open ExpressionFault

namespace Arrangement

variable {rank? : String → Option Nat} {s : Arrangement} {fault : ExpressionFault}

theorem not_ofEvaluation_of_await {f : String} {rank : Nat}
    (h : s.await f rank = .error fault) : ¬ fault.OfEvaluation := by
  rw [await] at h
  split at h
  · split at h
    · cases h
      exact id
    · cases h
  · cases h

theorem not_ofEvaluation_of_step {t : Token} (h : step rank? s t = .error fault) :
    ¬ fault.OfEvaluation := by
  cases t with
  | number value =>
      rw [step] at h
      split at h <;> cases h
      exact id
  | name name =>
      rw [step] at h
      split at h
      · cases h
        exact id
      · split at h
        · exact not_ofEvaluation_of_await h
        · cases h
  | operator op =>
      rw [step] at h
      split at h <;> cases h
      exact id
  | opening =>
      rw [step] at h
      split at h <;> cases h
      exact id
  | closing =>
      rw [step] at h
      split at h
      · cases h
        exact id
      · split at h <;> cases h
        exact id

theorem not_ofEvaluation_of_releaseAll {pending : List Pending} {output : List Token}
    (h : releaseAll pending output = .error fault) : ¬ fault.OfEvaluation := by
  fun_induction releaseAll pending output with
  | case1 => cases h
  | case2 =>
      cases h
      exact id
  | case3 op pending output ih => exact ih h
  | case4 f rank pending output ih => exact ih h

theorem not_ofEvaluation_of_finish (h : s.finish = .error fault) : ¬ fault.OfEvaluation := by
  rw [finish] at h
  split at h
  · exact not_ofEvaluation_of_releaseAll h
  · cases h
    exact id

end Arrangement

theorem not_ofEvaluation_of_reversePolish {rank? : String → Option Nat} {tokens : List Token}
    {fault : ExpressionFault} (h : reversePolish rank? tokens = .error fault) :
    ¬ fault.OfEvaluation := by
  rw [reversePolish] at h
  split at h
  · cases h
    exact id
  · rcases of_bind_eq_error h with stopped | ⟨s, -, unfinished⟩
    · obtain ⟨-, t, -, s, -, -, failed⟩ := foldlM_eq_error_iff.mp stopped
      exact Arrangement.not_ofEvaluation_of_step failed
    · exact Arrangement.not_ofEvaluation_of_finish unfinished

end Token

namespace Expr

/-- All variables of a tree are bound, and all names that are called are those of functions. -/
def DefinedIn (env : Environment) : Expr → Prop
  | number _ => True
  | «variable» name => env.bindings.contains name = true
  | call function argument => env.functions.contains function = true ∧ argument.DefinedIn env
  | binary _ left right => left.DefinedIn env ∧ right.DefinedIn env

/-- A known name that is used as the table of functions has it is bound or is a function. -/
theorem definedIn_of_wellNamed {env : Environment} {e : Expr}
    (named : e.WellNamed env.functions.contains)
    (known : ∀ name, e.Mentions name → name ∈ env.knownNames) : e.DefinedIn env := by
  induction e with
  | number value => trivial
  | «variable» name =>
      have bound := Environment.mem_knownNames_iff_contains.mp (known name rfl)
      exact bound.resolve_right fun function => Bool.false_ne_true (named.symm.trans function)
  | call function argument ih =>
      exact ⟨named.1, ih named.2 fun name mentioned => known name (.inr mentioned)⟩
  | binary op left right ihLeft ihRight =>
      exact ⟨ihLeft named.1 fun name mentioned => known name (.inl mentioned),
        ihRight named.2 fun name mentioned => known name (.inr mentioned)⟩

end Expr

namespace Environment

variable {env : Environment}

/-- What is read from a text can be evaluated: nothing in it is undefined. -/
theorem definedIn_of_readTokens {text : List Char} {reading : Reading}
    (read : env.readTokens (env.tokenize text) = .ok reading) : reading.tree.DefinedIn env := by
  have parse := parse_of_readTokens read
  refine Expr.definedIn_of_wellNamed (parse.wellNamed env.functions.isSome_rank?) ?_
  intro name mentioned
  exact Token.mem_of_name_mem_ofChars (mem_of_mentions read mentioned)

theorem definedIn_of_read {text : String} {reading : Reading} (read : env.read text = .ok reading) :
    reading.tree.DefinedIn env := by
  rw [Environment.read] at read
  split at read
  · cases read
  · exact definedIn_of_readTokens read

theorem not_ofEvaluation_of_read {text : String} {fault : ExpressionFault}
    (read : env.read text = .error fault) : ¬ fault.OfEvaluation := by
  rw [Environment.read] at read
  split at read
  · cases read
    exact id
  · exact Token.not_ofEvaluation_of_reversePolish (readTokens_eq_error_iff.mp read)

end Environment

end SeriesCalculator
