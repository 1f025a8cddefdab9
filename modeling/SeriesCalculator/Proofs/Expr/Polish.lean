import SeriesCalculator.Expr.ReversePolish
import SeriesCalculator.Proofs.Except
import SeriesCalculator.Reading

/-!
# The reverse Polish order of a tree

Flattening a tree puts its operands before their operator and an argument before
its function. `ofReversePolish_polish` says that building undoes flattening,
provided that the names of the tree are used as the table of functions has them:
a called name is a function, and a variable is not.
-/

namespace SeriesCalculator

namespace Expr

/-- The tokens of a tree in reverse Polish order. -/
def polish : Expr → List Token
  | number value => [.number value]
  | «variable» name => [.name name]
  | call function argument => argument.polish ++ [.name function]
  | binary op left right => left.polish ++ right.polish ++ [.operator op]

/-- Called names are functions and variables are not. -/
def WellNamed (isFunction : String → Bool) : Expr → Prop
  | number _ => True
  | «variable» name => isFunction name = false
  | call function argument => isFunction function = true ∧ argument.WellNamed isFunction
  | binary _ left right => left.WellNamed isFunction ∧ right.WellNamed isFunction

/-- A name stands in a tree, as a variable or as a function. -/
def Mentions (name : String) : Expr → Prop
  | number _ => False
  | «variable» n => n = name
  | call function argument => function = name ∨ argument.Mentions name
  | binary _ left right => left.Mentions name ∨ right.Mentions name

theorem name_mem_polish_iff {e : Expr} {name : String} :
    .name name ∈ e.polish ↔ e.Mentions name := by
  induction e with
  | number value => simp [polish, Mentions]
  | «variable» n => simp [polish, Mentions, eq_comm]
  | call function argument ih => simp [polish, Mentions, ih, or_comm, eq_comm]
  | binary op left right ihl ihr => simp [polish, Mentions, ihl, ihr]

/-- A flattened tree ends up as one tree on top of whatever the stack held. -/
theorem foldlM_build_polish {isFunction : String → Bool} {e : Expr}
    (h : e.WellNamed isFunction) (stack : List Expr) :
    e.polish.foldlM (build isFunction) stack = .ok (e :: stack) := by
  induction e generalizing stack with
  | number value => rfl
  | «variable» name =>
      change isFunction name = false at h
      change (build isFunction stack (.name name) >>= fun stack => .ok stack) = _
      simp only [build, h]
      rfl
  | call function argument ih =>
      obtain ⟨hf, ha⟩ := h
      rw [polish, foldlM_append_of_ok (ih ha stack), List.foldlM_cons]
      simp only [build, hf, if_true]
      rfl
  | binary op left right ihl ihr =>
      rw [polish, List.append_assoc, foldlM_append_of_ok (ihl h.1 stack),
        foldlM_append_of_ok (ihr h.2 (left :: stack))]
      rfl

theorem ofReversePolish_polish {isFunction : String → Bool} {e : Expr}
    (h : e.WellNamed isFunction) : ofReversePolish isFunction e.polish = .ok e := by
  rw [ofReversePolish, foldlM_build_polish h]
  rfl

end Expr

end SeriesCalculator
