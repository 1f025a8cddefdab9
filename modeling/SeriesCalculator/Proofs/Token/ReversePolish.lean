import SeriesCalculator.Proofs.Except
import SeriesCalculator.Token.ReversePolish

/-!
# How the stack gives way

Three things put out what waits on the stack: a new operator, the end of a group and the end of the
tokens. Above a stack that an expression may not touch (`Below`) only operators wait after the
expression, and each of the three puts them out, the innermost first. None of them changes how many
groups are open, except that the end of a group closes one.
-/

namespace SeriesCalculator.Token.Arrangement

/-- The stack neither ends with a function nor with an operator that binds at least
as strongly as `p`. An expression whose operators bind at least as strongly as `p`
can be read above such a stack without touching it. -/
def Below (p : Nat) : List Pending → Prop
  | .function _ _ :: _ => False
  | .operator op :: _ => op.precedence < p
  | _ => True

theorem Below.mono {p q : Nat} {pending : List Pending} (h : Below p pending) (le : p ≤ q) :
    Below q pending := by
  cases pending with
  | nil => trivial
  | cons top rest =>
      cases top with
      | operator op => exact Nat.lt_of_lt_of_le h le
      | function => exact h
      | group => trivial

theorem Below.releaseFunctions_eq {p : Nat} {pending : List Pending} (h : Below p pending)
    (output : List Token) : releaseFunctions pending output = (pending, output) := by
  cases pending with
  | nil => rfl
  | cons top rest =>
      cases top with
      | operator op => rfl
      | function => exact h.elim
      | group => rfl

theorem Below.releaseOperators_eq {op : Operator} {pending : List Pending}
    (h : Below op.precedence pending) (output : List Token) :
    releaseOperators op pending output = (pending, output) := by
  cases pending with
  | nil => rfl
  | cons top rest =>
      cases top with
      | operator top =>
          have weaker : ¬ op.precedence ≤ top.precedence := Nat.not_le.mpr h
          simp only [releaseOperators, if_neg weaker]
      | function => rfl
      | group => rfl

/-- An operator puts out all waiting operators that bind at least as strongly. -/
theorem releaseOperators_append {op : Operator} {ops : List Operator} {pending : List Pending}
    (strong : ∀ top ∈ ops, op.precedence ≤ top.precedence) (h : Below op.precedence pending)
    (output : List Token) :
    releaseOperators op (ops.map .operator ++ pending) output =
      (pending, (ops.map Token.operator).reverse ++ output) := by
  induction ops generalizing output with
  | nil => exact h.releaseOperators_eq output
  | cons top ops ih =>
      have le := strong top List.mem_cons_self
      have rest := ih (fun other mem => strong other (List.mem_cons_of_mem _ mem))
      simp only [List.map_cons, List.cons_append, releaseOperators, if_pos le, rest,
        List.reverse_cons, List.append_assoc, List.nil_append]

theorem releaseGroup_append (ops : List Operator) (pending : List Pending) (output : List Token) :
    releaseGroup (ops.map .operator ++ .group :: pending) output =
      some (pending, (ops.map Token.operator).reverse ++ output) := by
  induction ops generalizing output with
  | nil => rfl
  | cons top ops ih => simpa [releaseGroup] using ih (.operator top :: output)

theorem releaseAll_map (ops : List Operator) (output : List Token) :
    releaseAll (ops.map .operator) output =
      .ok ((ops.map Token.operator).reverse ++ output).reverse := by
  induction ops generalizing output with
  | nil => rfl
  | cons top ops ih => simpa [releaseAll] using ih (.operator top :: output)

/-- The number of groups that are open. -/
def openGroups : List Pending → Nat
  | [] => 0
  | .group :: pending => openGroups pending + 1
  | .operator _ :: pending | .function _ _ :: pending => openGroups pending

theorem openGroups_releaseFunctions (pending : List Pending) (output : List Token) :
    openGroups (releaseFunctions pending output).1 = openGroups pending := by
  fun_induction releaseFunctions pending output with
  | case1 f rank pending output ih => exact ih
  | case2 => rfl

theorem openGroups_releaseOperators (op : Operator) (pending : List Pending)
    (output : List Token) :
    openGroups (releaseOperators op pending output).1 = openGroups pending := by
  fun_induction releaseOperators op pending output with
  | case1 top pending output le ih => exact ih
  | case2 => rfl
  | case3 => rfl

theorem openGroups_of_releaseGroup {pending pending' : List Pending} {output output' : List Token}
    (h : releaseGroup pending output = some (pending', output')) :
    openGroups pending = openGroups pending' + 1 := by
  fun_induction releaseGroup pending output with
  | case1 => cases h
  | case2 output pending =>
      cases h
      rfl
  | case3 op pending output ih => exact ih h
  | case4 f rank pending output ih => exact ih h

theorem openGroups_of_releaseAll {pending : List Pending} {output polish : List Token}
    (h : releaseAll pending output = .ok polish) : openGroups pending = 0 := by
  fun_induction releaseAll pending output with
  | case1 => rfl
  | case2 => cases h
  | case3 op pending output ih => exact ih h
  | case4 f rank pending output ih => exact ih h

section Steps

variable {rank? : String → Option Nat}

theorem of_await_eq_ok {s t : Arrangement} {f : String} {rank : Nat}
    (h : await s f rank = .ok t) :
    (∀ outer outerRank rest, s.pending = .function outer outerRank :: rest → rank < outerRank) ∧
      t = { s with pending := .function f rank :: s.pending } := by
  rw [await] at h
  split at h
  · rename_i outer outerRank rest pendingEq
    split at h
    · cases h
    · rename_i lower
      cases h
      refine ⟨?_, rfl⟩
      rintro _ _ _ same
      cases pendingEq.symm.trans same
      exact Nat.not_le.mp lower
  · rename_i noFunction
    cases h
    exact ⟨fun outer outerRank rest pendingEq => (noFunction _ _ _ pendingEq).elim, rfl⟩

/-- A function waits if it may stand before what it finds on the stack. -/
theorem step_function {f : String} {rank : Nat} {pending : List Pending}
    (ranked : rank? f = some rank)
    (top : ∀ outer outerRank rest, pending = .function outer outerRank :: rest → rank < outerRank)
    (output : List Token) :
    step rank? ⟨output, pending, false⟩ (.name f) =
      .ok ⟨output, .function f rank :: pending, false⟩ := by
  simp only [step, ranked, Bool.false_eq_true, if_false]
  cases pending with
  | nil => rfl
  | cons first rest =>
      cases first with
      | operator => rfl
      | group => rfl
      | function outer outerRank =>
          have lower : ¬ outerRank ≤ rank := Nat.not_le.mpr (top outer outerRank rest rfl)
          simp only [await, if_neg lower]

theorem step_closing (ops : List Operator) (pending : List Pending) (output : List Token) :
    step rank? ⟨output, ops.map .operator ++ .group :: pending, true⟩ .closing =
      .ok (ended pending ((ops.map Token.operator).reverse ++ output)) := by
  simp only [step, releaseGroup_append, Bool.not_true, Bool.false_eq_true, if_false]

theorem step_operator {op : Operator} {ops : List Operator} {pending : List Pending}
    (strong : ∀ top ∈ ops, op.precedence ≤ top.precedence) (h : Below op.precedence pending)
    (output : List Token) :
    step rank? ⟨output, ops.map .operator ++ pending, true⟩ (.operator op) =
      .ok ⟨(ops.map Token.operator).reverse ++ output, .operator op :: pending, false⟩ := by
  simp only [step, releaseOperators_append strong h, Bool.not_true, Bool.false_eq_true, if_false]

end Steps

/-- Whether the remaining tokens bring the arrangement to an end without a fault. -/
def Accepts (rank? : String → Option Nat) (s : Arrangement) (tokens : List Token) : Prop :=
  ∃ t polish, tokens.foldlM (step rank?) s = .ok t ∧ t.finish = .ok polish

theorem Accepts.cons {rank? : String → Option Nat} {s : Arrangement} {token : Token}
    {tokens : List Token} (h : Accepts rank? s (token :: tokens)) :
    ∃ t, step rank? s token = .ok t ∧ Accepts rank? t tokens := by
  obtain ⟨t, polish, run, finished⟩ := h
  obtain ⟨u, first, rest⟩ := foldlM_cons_eq_ok_iff.mp run
  exact ⟨u, first, t, polish, rest, finished⟩

end SeriesCalculator.Token.Arrangement
