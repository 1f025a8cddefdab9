import SeriesCalculator.Proofs.Token.Product

/-!
# Tokens in place of a variable

`substitute` puts tokens in parentheses wherever a name stands. A variable and a group begin and end
a value alike. So products are implied around the group where they are implied around the variable,
and inside of it they are those of the tokens that have been put in (`withProducts_substitute`).
-/

namespace SeriesCalculator.Token

/-- Puts tokens in parentheses wherever a name stands. -/
def substitute (name : String) (inner tokens : List Token) : List Token :=
  tokens.flatMap fun t => if t = .name name then .opening :: inner ++ [.closing] else [t]

section

variable {name : String} {inner tokens : List Token} {t : Token}

@[simp] theorem substitute_cons_name :
    substitute name inner (.name name :: tokens) =
      .opening :: (inner ++ .closing :: substitute name inner tokens) := by
  simp [substitute]

theorem substitute_cons_of_ne (ne : t ≠ .name name) :
    substitute name inner (t :: tokens) = t :: substitute name inner tokens := by
  simp [substitute, ne]

@[simp] theorem substitute_cons_operator (op : Operator) :
    substitute name inner (.operator op :: tokens) =
      .operator op :: substitute name inner tokens :=
  substitute_cons_of_ne nofun

theorem substitute_append (front behind : List Token) :
    substitute name inner (front ++ behind) =
      substitute name inner front ++ substitute name inner behind :=
  List.flatMap_append

end

variable {isFunction : String → Bool} {name : String} {inner tokens : List Token} {t : Token}

theorem endsFactor_name (free : isFunction name = false) :
    (Token.name name).endsFactor isFunction = true := by
  simp [endsFactor, isVariable, free]

theorem startsFactor_name (free : isFunction name = false) :
    (Token.name name).startsFactor isFunction = true := by
  simp [startsFactor, isVariable, free]

variable (inner) in
theorem noFactorAhead_substitute_iff (free : isFunction name = false) :
    NoFactorAhead isFunction (substitute name inner tokens) ↔ NoFactorAhead isFunction tokens := by
  cases tokens with
  | nil => rfl
  | cons t tokens =>
      by_cases same : t = .name name
      · subst same
        rw [substitute_cons_name, noFactorAhead_cons_iff, noFactorAhead_cons_iff,
          startsFactor_name free]
        rfl
      · rw [substitute_cons_of_ne same, noFactorAhead_cons_iff, noFactorAhead_cons_iff]

theorem substitute_consFactor (free : isFunction name = false) (ne : t ≠ .name name) :
    substitute name inner (consFactor isFunction t tokens) =
      consFactor isFunction t (substitute name inner tokens) := by
  by_cases ahead : NoFactorAhead isFunction tokens
  · have ahead' := (noFactorAhead_substitute_iff inner free).mpr ahead
    rw [consFactor_of_ahead ahead, consFactor_of_ahead ahead', substitute_cons_of_ne ne]
  · have ahead' := mt (noFactorAhead_substitute_iff inner free).mp ahead
    cases ends : t.endsFactor isFunction with
    | false =>
        rw [consFactor_of_not_ends ends, consFactor_of_not_ends ends, substitute_cons_of_ne ne]
    | true =>
        rw [consFactor_of_factors ends ahead, consFactor_of_factors ends ahead',
          substitute_cons_of_ne ne, substitute_cons_operator]

/-- What follows the variable follows the parenthesis that closes the group. -/
theorem substitute_consFactor_name (free : isFunction name = false) :
    substitute name inner (consFactor isFunction (.name name) tokens) =
      .opening :: (inner ++ consFactor isFunction .closing (substitute name inner tokens)) := by
  by_cases ahead : NoFactorAhead isFunction tokens
  · have ahead' := (noFactorAhead_substitute_iff inner free).mpr ahead
    rw [consFactor_of_ahead ahead, consFactor_of_ahead ahead', substitute_cons_name]
  · have ahead' := mt (noFactorAhead_substitute_iff inner free).mp ahead
    rw [consFactor_of_factors (endsFactor_name free) ahead, consFactor_of_factors rfl ahead',
      substitute_cons_name, substitute_cons_operator]

theorem withProducts_substitute (free : isFunction name = false) :
    withProducts isFunction (substitute name inner tokens) =
      substitute name (withProducts isFunction inner) (withProducts isFunction tokens) := by
  induction tokens with
  | nil => rfl
  | cons t tokens ih =>
      change _ = substitute name _ (consFactor isFunction t (withProducts isFunction tokens))
      by_cases same : t = .name name
      · subst same
        rw [substitute_cons_name, substitute_consFactor_name free, ← ih, withProducts,
          List.foldr_cons, List.foldr_append, List.foldr_cons, foldr_consFactor_eq]
        · exact consFactor_opening
        · exact noFactorAhead_consFactor_iff.mpr rfl
      · rw [substitute_cons_of_ne same, substitute_consFactor free same, ← ih]
        rfl

end SeriesCalculator.Token
