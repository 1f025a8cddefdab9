import SeriesCalculator.Proofs.Evaluation.Substitution
import SeriesCalculator.Proofs.Token.Text

/-!
# Entering a result again

The result of an evaluation is a double, and its text is cut into tokens like any other text. There is
no sign that belongs to a number and no point inside of one. So the text of a negative result is a minus
sign and then a number, and a text with a point is two numbers (`ofChars_text_of_isFinite`). Only a
natural result is the same token again (`tokenize_result`).
-/

namespace SeriesCalculator

/-- The tokens of the text of a finite double: a minus sign for a sign, then the number of the digits
before the point, then that of the digits after it, if there are any. -/
def Decimal.tokens (x : Float) : List Token :=
  (if (Binary.decode x).negative then [.operator .subtract] else []) ++
    .number (ofDigits (positionalOf x).whole) ::
      if (positionalOf x).fraction = [] then [] else [.number (ofDigits (positionalOf x).fraction)]

namespace Token

/-- Names of which none begins with a character that can stand in the text of a finite double. -/
abbrev NoNumeralFirst (names : List String) : Prop :=
  ∀ name ∈ names, ∀ c ∈ name.toList.head?, c.isDigit = false ∧ c ≠ '-' ∧ c ≠ '.'

variable {names : List String} {x : Float}

section

variable (letters : NoNumeralFirst names)

include letters

theorem NoNumeralFirst.noDigitFirst : Piece.NoDigitFirst names :=
  fun name mem c head => (letters name mem c head).1

theorem ofChars_minus (rest : List Char) :
    ofChars names ('-' :: rest) = .operator .subtract :: ofChars names rest := by
  have other : ∀ name ∈ names, name.toList.head? ≠ some '-' :=
    fun name mem head => (letters name mem '-' head).2.1 rfl
  rw [ofChars, Piece.cut_sign other (by decide) rfl]
  rfl

theorem ofChars_point (rest : List Char) : ofChars names ('.' :: rest) = ofChars names rest := by
  have noName := Piece.nameAt?_eq_none rest
    fun name mem head => (letters name mem '.' head).2.2 rfl
  have first : Piece.next (names.map String.toList) '.' rest = .ignored '.' := by
    have blank : Text.isBlank '.' = false := by decide
    have digit : '.'.isDigit = false := by decide
    have sign : ofSymbol? '.' = none := by decide
    simp [Piece.next, noName, blank, digit, sign]
  rw [ofChars, Piece.cut_cons, first]
  rfl

theorem ofChars_positional (d : Decimal) :
    ofChars names d.positional.chars =
      .number (Decimal.ofDigits d.positional.whole) ::
        if d.positional.fraction = [] then []
        else [.number (Decimal.ofDigits d.positional.fraction)] := by
  have noDigit := letters.noDigitFirst
  have whole := Decimal.isDigit_of_mem_whole d
  have ne := Decimal.whole_ne_nil d
  rw [Decimal.Positional.chars]
  split
  · exact ofChars_run noDigit ne whole
  · rename_i nonempty
    rw [ofChars_run_append noDigit ne whole, ofChars_point letters,
      ofChars_run noDigit nonempty (Decimal.isDigit_of_mem_fraction d)]
    intro c head
    cases head
    decide

/-- The text of a finite double is cut into a sign and one number or two. -/
theorem ofChars_text_of_isFinite (finite : x.isFinite = true) :
    ofChars names (Decimal.text x).toList = Decimal.tokens x := by
  have magnitude := ofChars_positional letters (Decimal.shortest (Binary.decode x))
  rw [Decimal.toList_text finite, Decimal.tokens, Decimal.positionalOf]
  split
  · exact (ofChars_minus letters _).trans (congrArg _ magnitude)
  · exact magnitude

/-- Only the text of a natural double is cut into this double. -/
theorem ofChars_text_eq_singleton_iff (finite : x.isFinite = true) :
    ofChars names (Decimal.text x).toList = [.number x] ↔ Binary.IsNatural x := by
  constructor
  · intro same
    have mem : .number x ∈ ofChars names (Decimal.text x).toList := by
      rw [same]
      exact List.mem_singleton_self _
    exact isNatural_of_number_mem mem finite
  · exact ofChars_text_of_isNatural letters.noDigitFirst

end

end Token

namespace Environment

open Calculation

/-- If no known name begins with a digit, a minus sign or a point, the text of a finite result is cut
into a minus sign, if the result has a sign, the number of the digits before the point, and the number
of those after it, if there are any. This is the result itself exactly if it is a whole number without
a sign. -/
theorem tokenize_result {env after : Environment} {text : String} {x : Float}
    (letters : Token.NoNumeralFirst env.knownNames)
    (run : (evaluate text).run.run env = (.ok x, after)) (finite : x.isFinite = true) :
    after.tokenize (Token.listText [.number x]).toList = Decimal.tokens x ∧
      (after.tokenize (Token.listText [.number x]).toList = [.number x] ↔ Binary.IsNatural x) := by
  obtain rfl : after = env := by
    have unchanged := preserving_evaluate text env
    rw [run] at unchanged
    exact unchanged
  have written : Token.listText [.number x] = Decimal.text x := rfl
  rw [written]
  exact ⟨Token.ofChars_text_of_isFinite letters finite,
    Token.ofChars_text_eq_singleton_iff letters finite⟩

/-- A result with a sign and a point. -/
theorem tokenize_result_negative :
    let env := initial .default
    let result : Float := -3.5
    (Token.NoNumeralFirst env.knownNames ∧
      (evaluate "0-7/2").run.run env = (.ok result, env) ∧ result.isFinite = true) ∧
    env.tokenize (Token.listText [.number result]).toList =
      [.operator .subtract, .number 3, .number 5] ∧
    env.tokenize (Token.listText [.number result]).toList ≠ [.number result] := by
  intro env result
  have firsts : ∀ name ∈ env.bindings.names ++ env.functions.names,
      name.toList.head?.all (fun c => !c.isDigit && c != '-' && c != '.') = true := by
    decide +kernel
  have letters : Token.NoNumeralFirst env.knownNames := by
    intro name known c head
    have first := firsts name (mem_knownNames.mp known)
    rw [Option.mem_def.mp head] at first
    simpa [and_assoc] using first
  have ok : (evaluate "0-7/2").answer env = .ok result := by
    rw [answer_evaluate_eq_tokens (by decide +kernel), tokenize_initial]
    decide +kernel
  have run : (evaluate "0-7/2").run.run env = (.ok result, env) := by
    rw [run_eq_answer env (preserving_evaluate _), ok]
  have finite : result.isFinite = true := by decide +kernel
  obtain ⟨tokens, -⟩ := tokenize_result letters run finite
  have signed : Decimal.tokens result = [.operator .subtract, .number 3, .number 5] := by
    decide +kernel
  rw [signed] at tokens
  refine ⟨⟨letters, run, finite⟩, tokens, ?_⟩
  rw [tokens]
  decide

/-- Names of letters and digits do not make every result read back: a half is written with a point. -/
theorem not_tokenize_result_half :
    ¬ ∀ (env after : Environment) (text : String) (x : Float),
      (∀ name ∈ env.knownNames, name.toList.head?.any Char.isAlpha = true ∧
        name.toList.all Char.isAlphanum = true) →
      (evaluate text).run.run env = (.ok x, after) → x.isFinite = true →
      after.tokenize (Token.listText [.number x]).toList = [.number x] := by
  intro claim
  let env := initial .default
  let half : Float := 0.5
  have listed : ∀ name ∈ env.bindings.names ++ env.functions.names,
      name.toList.head?.any Char.isAlpha = true ∧ name.toList.all Char.isAlphanum = true := by
    decide +kernel
  have letters : ∀ name ∈ env.knownNames, name.toList.head?.any Char.isAlpha = true ∧
      name.toList.all Char.isAlphanum = true :=
    fun name known => listed name (mem_knownNames.mp known)
  have ok : (evaluate "1/2").answer env = .ok half := by
    rw [answer_evaluate_eq_tokens (by decide +kernel), tokenize_initial]
    decide +kernel
  have run : (evaluate "1/2").run.run env = (.ok half, env) := by
    rw [run_eq_answer env (preserving_evaluate _), ok]
  have same := claim env env "1/2" half letters run (by decide +kernel)
  rw [tokenize_initial] at same
  exact absurd same (by decide +kernel)

end Environment

end SeriesCalculator
