import SeriesCalculator.Proofs.Expr.Polish

/-!
# The grammar of expressions

An expression is a list of operands with operators between them. An operand is a
number, a variable, an expression in parentheses, or a function before an operand;
two functions may stand side by side only if the inner one has the lower rank.
`Operand` and `Expression` say which token lists have this form, and leave open
how the operators group.

`Parse` settles that. It relates a token list to the tree that it stands for when
the operators bind in the strict order of their precedence and group from the
left. `Expression.exists_parse` says that every expression has such a parse.
-/

namespace SeriesCalculator.Grammar

/-- Whether a function of the given rank may stand directly before these tokens.
If they begin with a function as well, that one must have been entered earlier. -/
def MayPrecede (rank? : String → Option Nat) (rank : Nat) (tokens : List Token) : Prop :=
  ∀ inner innerRank, tokens.head? = some (.name inner) → rank? inner = some innerRank →
    innerRank < rank

section

variable (rank? : String → Option Nat)

mutual

/-- The token lists of operands. The ranks tell functions from variables. -/
inductive Operand : List Token → Prop
  | number (value : Float) : Operand [.number value]
  | «variable» {name : String} (free : rank? name = none) : Operand [.name name]
  | group {tokens : List Token} (inner : Expression tokens) :
      Operand (.opening :: tokens ++ [.closing])
  | call {function : String} {rank : Nat} {tokens : List Token}
      (ranked : rank? function = some rank) (before : MayPrecede rank? rank tokens)
      (argument : Operand tokens) : Operand (.name function :: tokens)

/-- The token lists of expressions: operands with operators between them. -/
inductive Expression : List Token → Prop
  | operand {tokens : List Token} (h : Operand tokens) : Expression tokens
  | binary {left right : List Token} (op : Operator) (hl : Expression left)
      (hr : Operand right) : Expression (left ++ .operator op :: right)

end

mutual

/-- An operand and its tree. Parentheses group and leave no trace in the tree. -/
inductive ParseOperand : List Token → Expr → Prop
  | number (value : Float) : ParseOperand [.number value] (.number value)
  | «variable» {name : String} (free : rank? name = none) :
      ParseOperand [.name name] (.variable name)
  | group {tokens : List Token} {e : Expr} (inner : Parse 0 tokens e) :
      ParseOperand (.opening :: tokens ++ [.closing]) e
  | call {function : String} {rank : Nat} {tokens : List Token} {e : Expr}
      (ranked : rank? function = some rank) (before : MayPrecede rank? rank tokens)
      (argument : ParseOperand tokens e) :
      ParseOperand (.name function :: tokens) (.call function e)

/-- `Parse p tokens e` says that `tokens` stand for `e` and that no operator outside of
parentheses binds less strongly than `p`. The left operand of an operator may contain
operators of the same strength, the right one only stronger ones. -/
inductive Parse : Nat → List Token → Expr → Prop
  | operand {p : Nat} {tokens : List Token} {e : Expr} (h : ParseOperand tokens e) :
      Parse p tokens e
  | binary {p : Nat} {left right : List Token} {op : Operator} {a b : Expr}
      (le : p ≤ op.precedence) (hl : Parse op.precedence left a)
      (hr : Parse (op.precedence + 1) right b) :
      Parse p (left ++ .operator op :: right) (.binary op a b)

end

end

variable {rank? : String → Option Nat}

mutual

theorem ParseOperand.wellNamed {isFunction : String → Bool} {tokens : List Token} {e : Expr}
    (same : ∀ name, (rank? name).isSome = isFunction name) :
    ParseOperand rank? tokens e → e.WellNamed isFunction
  | .number _ => trivial
  | .variable free => by
      change isFunction _ = false
      rw [← same, free]
      rfl
  | .group inner => inner.wellNamed same
  | .call ranked _ argument => by
      refine ⟨?_, argument.wellNamed same⟩
      rw [← same, ranked]
      rfl

/-- The names of a parsed tree are used as the ranks have them. -/
theorem Parse.wellNamed {isFunction : String → Bool} {p : Nat} {tokens : List Token} {e : Expr}
    (same : ∀ name, (rank? name).isSome = isFunction name) :
    Parse rank? p tokens e → e.WellNamed isFunction
  | .operand h => h.wellNamed same
  | .binary _ hl hr => ⟨hl.wellNamed same, hr.wellNamed same⟩

end

/-- An operator and an operand can be put behind every parse whose operators bind
at least as weakly. The new operator goes as deep into the right edge of the tree
as its precedence asks for. -/
theorem Parse.exists_append {p : Nat} {left right : List Token} {a b : Expr} {op : Operator}
    (le : p ≤ op.precedence) (hr : ParseOperand rank? right b) :
    Parse rank? p left a → ∃ e, Parse rank? p (left ++ .operator op :: right) e
  | .operand h => ⟨_, .binary le (.operand h) (.operand hr)⟩
  | @Parse.binary _ _ first second inner _ _ innerLe hFirst hSecond => by
      by_cases stronger : inner.precedence < op.precedence
      · obtain ⟨e, he⟩ := hSecond.exists_append stronger hr
        have deeper := Parse.binary innerLe hFirst he
        exact ⟨_, by simpa only [List.append_assoc, List.cons_append] using deeper⟩
      · have whole := Parse.binary (Nat.not_lt.mp stronger) hFirst hSecond
        exact ⟨_, .binary le whole (.operand hr)⟩

mutual

theorem Operand.exists_parse {tokens : List Token} :
    Operand rank? tokens → ∃ e, ParseOperand rank? tokens e
  | .number value => ⟨_, .number value⟩
  | .variable free => ⟨_, .variable free⟩
  | .group inner => by
      obtain ⟨e, he⟩ := inner.exists_parse
      exact ⟨e, .group he⟩
  | .call ranked before argument => by
      obtain ⟨e, he⟩ := argument.exists_parse
      exact ⟨_, .call ranked before he⟩

/-- Every expression has a parse, however its operators are mixed. -/
theorem Expression.exists_parse {tokens : List Token} :
    Expression rank? tokens → ∃ e, Parse rank? 0 tokens e
  | .operand h => by
      obtain ⟨e, he⟩ := h.exists_parse
      exact ⟨e, .operand he⟩
  | .binary op hl hr => by
      obtain ⟨a, ha⟩ := hl.exists_parse
      obtain ⟨b, hb⟩ := hr.exists_parse
      exact ha.exists_append (Nat.zero_le _) hb

end

/-- Two expressions with an operator between them are an expression. -/
theorem Expression.append {left right : List Token} (op : Operator)
    (hl : Expression rank? left) :
    Expression rank? right → Expression rank? (left ++ .operator op :: right)
  | .operand h => .binary op hl h
  | .binary inner hFirst hSecond => by
      have whole := Expression.binary inner (hl.append op hFirst) hSecond
      simpa only [List.append_assoc, List.cons_append] using whole

end SeriesCalculator.Grammar
