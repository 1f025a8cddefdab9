import SeriesCalculator.Proofs.Grammar.Arrangement
import SeriesCalculator.Proofs.Token.Substitution

/-!
# Substitution in the grammar

A group is an operand wherever a variable is one. So tokens in which an expression in parentheses
stands for a variable are an expression exactly if they were one with the variable, and their tree
has the tree of that expression in its leaves (`parse_substitute_iff`).

From the variable to the group the derivation of the parse shows this. Back it follows from what the
arrangement accepts. It goes through the tokens of the group in one go, and then it is where
it would be behind the variable (`completes_of_accepts_substitute`).
-/

namespace SeriesCalculator

/-- Puts a tree in place of a variable. -/
def Expr.substitute (name : String) : Expr → Expr → Expr
  | number value, _ => number value
  | «variable» n, sub => if n = name then sub else «variable» n
  | call function argument, sub => call function (argument.substitute name sub)
  | binary op left right, sub => binary op (left.substitute name sub) (right.substitute name sub)

namespace Grammar

open Token Token.Arrangement

variable {rank? : String → Option Nat} {name : String} {inner : List Token} {sub : Expr}

/-- A function may stand before the group as it may before the variable. -/
theorem MayPrecede.substitute {rank : Nat} {tokens : List Token}
    (h : MayPrecede rank? rank tokens) :
    MayPrecede rank? rank (substitute name inner tokens) := by
  cases tokens with
  | nil => exact h
  | cons t tokens =>
      by_cases same : t = .name name
      · subst same
        rw [substitute_cons_name]
        intro f fRank head
        cases head
      · rw [substitute_cons_of_ne same]
        intro f fRank head
        exact h f fRank head

mutual

theorem ParseOperand.substitute (free : rank? name = none) (group : Parse rank? 0 inner sub)
    {tokens : List Token} {e : Expr} :
    ParseOperand rank? tokens e →
      ParseOperand rank? (Token.substitute name inner tokens) (e.substitute name sub)
  | .number value => .number value
  | @ParseOperand.variable _ n unranked => by
      by_cases same : n = name
      · subst same
        rw [substitute_cons_name, Expr.substitute, if_pos rfl]
        exact .group group
      · have kept : Token.name n ≠ .name name := mt Token.name.inj same
        rw [substitute_cons_of_ne kept, Expr.substitute, if_neg same]
        exact .variable unranked
  | .group h => by
      rw [List.cons_append, substitute_cons_of_ne (t := .opening) nofun, substitute_append,
        substitute_cons_of_ne (t := .closing) nofun]
      exact .group (Parse.substitute free group h)
  | @ParseOperand.call _ f rank tokens e ranked before argument => by
      have kept : Token.name f ≠ .name name := by
        rintro ⟨⟩
        rw [free] at ranked
        cases ranked
      rw [substitute_cons_of_ne kept]
      exact .call ranked before.substitute (ParseOperand.substitute free group argument)

theorem Parse.substitute (free : rank? name = none) (group : Parse rank? 0 inner sub) {p : Nat}
    {tokens : List Token} {e : Expr} :
    Parse rank? p tokens e →
      Parse rank? p (Token.substitute name inner tokens) (e.substitute name sub)
  | .operand h => .operand (ParseOperand.substitute free group h)
  | .binary le hl hr => by
      rw [substitute_append, substitute_cons_operator]
      exact .binary le (Parse.substitute free group hl) (Parse.substitute free group hr)

end

/-- After the tokens of the group the arrangement has the value that it would have after the
variable. -/
theorem accepts_of_accepts_group (group : Parse rank? 0 inner sub) {s : Token.Arrangement}
    {tokens : List Token} (h : Accepts rank? s (.opening :: (inner ++ .closing :: tokens))) :
    s.afterValue = false ∧ ∃ output, Accepts rank? (ended s.pending output) tokens := by
  obtain ⟨output, pending, afterValue⟩ := s
  cases afterValue with
  | true =>
      obtain ⟨t, refused, -⟩ := h.cons
      cases refused
  | false =>
      have fits : Fits rank? pending (.opening :: inner ++ [.closing]) := by
        rintro f rank rest - g gRank ⟨⟩
      have run := (ParseOperand.group group).foldlM_step output fits
      obtain ⟨t, polish, through, finished⟩ := h
      have whole : .opening :: inner ++ [.closing] ++ tokens =
          .opening :: (inner ++ .closing :: tokens) := by
        simp
      rw [← whole, foldlM_append_of_ok run] at through
      exact ⟨rfl, _, t, polish, through, finished⟩

theorem completes_of_accepts_substitute (free : rank? name = none) (group : Parse rank? 0 inner sub)
    {tokens : List Token} {s : Token.Arrangement}
    (h : Accepts rank? s (Token.substitute name inner tokens)) : Completes rank? s tokens := by
  induction tokens generalizing s with
  | nil => exact completes_of_accepts h
  | cons token tokens ih =>
      by_cases same : token = .name name
      · subst same
        rw [substitute_cons_name] at h
        obtain ⟨output, pending, afterValue⟩ := s
        obtain ⟨rfl, output', rest⟩ := accepts_of_accepts_group group h
        refine completes_value (.variable free) ?_ (ih rest)
        rintro _ ⟨⟩
        exact free
      · rw [substitute_cons_of_ne same] at h
        obtain ⟨t, first, rest⟩ := h.cons
        exact completes_of_step first (ih rest)

/-- The trees of the tokens with the group are the trees of the tokens with the variable. -/
theorem parse_substitute_iff (free : rank? name = none) (group : Parse rank? 0 inner sub)
    {tokens : List Token} {e : Expr} :
    Parse rank? 0 (Token.substitute name inner tokens) e ↔
      ∃ e', Parse rank? 0 tokens e' ∧ e = e'.substitute name sub := by
  constructor
  · intro h
    have accepted := accepts_of_reversePolish h.reversePolish_eq
    have expression := expression_of_completes (completes_of_accepts_substitute free group accepted)
    obtain ⟨e', parse⟩ := expression.exists_parse
    exact ⟨e', parse, h.unique (Parse.substitute free group parse)⟩
  · rintro ⟨e', parse, rfl⟩
    exact Parse.substitute free group parse

end Grammar

end SeriesCalculator
