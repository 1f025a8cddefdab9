import SeriesCalculator.Proofs.Decimal.Text
import SeriesCalculator.Proofs.Environment.KnownNames
import SeriesCalculator.Proofs.Token.Blank

/-!
# The written form of tokens reads back

A piece of a text is also the piece at the start of its own characters, whatever stood behind it in the
text (`cut_chars_next`): a name that was found in a longer text is found again, since a name that is
tried before it would have been found there as well. A name and a sign are written with the characters
of their piece, so they read back. A number may be written with other digits than those it was read
from, and reads back because it is a natural double; only infinity does not.

Between the tokens of a list there are blanks, and a blank separates. So the tokens of a text read back
from their written form exactly if all numbers among them are finite (`tokenize_listText_iff`).
-/

namespace SeriesCalculator

namespace Piece

variable {names : List (List Char)} {text start letters : List Char}

theorem nameAt?_eq_none_of_isPrefix (none : nameAt? names text = none) (within : start <+: text) :
    nameAt? names start = .none := by
  rw [nameAt?, List.find?_eq_none] at none ⊢
  intro name mem fits
  refine none name mem ?_
  simp only [Bool.and_eq_true, List.isPrefixOf_iff_prefix] at fits ⊢
  exact ⟨fits.1, fits.2.trans within⟩

theorem nameAt?_letters (found : nameAt? names text = some letters) :
    nameAt? names letters = some letters := by
  have within := isPrefix_of_nameAt? found
  have ne := ne_nil_of_nameAt? found
  rw [nameAt?, List.find?_eq_some_iff_append] at found ⊢
  obtain ⟨-, before, behind, order, earlier⟩ := found
  refine ⟨by simp [ne], before, behind, order, ?_⟩
  intro name mem
  have notThere := earlier name mem
  simp only [Bool.not_eq_true', Bool.and_eq_false_iff] at notThere ⊢
  refine notThere.imp_right fun other => ?_
  rw [Bool.eq_false_iff, ne_eq, List.isPrefixOf_iff_prefix] at other ⊢
  exact fun here => other (here.trans within)

/-- A piece stands at the start of its own characters. -/
theorem next_of_chars_next {c d : Char} {rest more : List Char}
    (alone : (next names c rest).chars = d :: more) : next names d more = next names c rest := by
  have within := chars_next_isPrefix names c rest
  rw [alone] at within
  obtain ⟨rfl, -⟩ := List.cons_prefix_cons.mp within
  unfold next at alone ⊢
  by_cases blank : Text.isBlank d = true
  · simp only [if_pos blank]
  simp only [if_neg blank] at alone ⊢
  cases found : nameAt? names (d :: rest) with
  | some letters =>
      rw [found] at alone
      simp only [chars] at alone
      rw [← alone, nameAt?_letters found]
  | none =>
      rw [found] at alone
      rw [nameAt?_eq_none_of_isPrefix found within]
      by_cases digit : d.isDigit = true
      · simp only [if_pos digit, chars, List.cons.injEq, true_and] at alone ⊢
        rw [← alone, List.takeWhile_idem]
      · simp only [if_neg digit]

/-- A piece alone is not cut any further. -/
theorem cut_chars_next (names : List (List Char)) (c : Char) (rest : List Char) :
    cut names (next names c rest).chars = [next names c rest] := by
  cases alone : (next names c rest).chars with
  | nil => exact absurd alone (chars_next_ne_nil names c rest)
  | cons d more => rw [cut_cons, next_of_chars_next alone, alone, List.drop_length, cut_nil]

end Piece

namespace Token

variable {names : List String} {text : List Char} {t : Token} {x : Float}

@[simp] theorem ofChars_nil (names : List String) : ofChars names [] = [] := by
  rw [ofChars, Piece.cut_nil, List.filterMap_nil]

/-- A number among the tokens of a text has been read from digits of the text. -/
theorem of_number_mem_ofChars (mem : .number x ∈ ofChars names text) :
    (∃ c ∈ text, c.isDigit = true) ∧ ∃ run, x = Decimal.ofDigits run := by
  obtain ⟨piece, inCut, token⟩ := List.mem_filterMap.mp mem
  obtain ⟨c, rest, ends, rfl⟩ := Piece.exists_next_of_mem_cut inCut
  rcases Piece.next_of_token? token with ⟨letters, same, -⟩ | ⟨run, same, digit⟩ | ⟨sign, -⟩
  · cases same
  · exact ⟨⟨c, ends.subset List.mem_cons_self, digit⟩, run, number.inj same⟩
  · exact absurd rfl ((ofSymbol?_eq_some sign).1 x)

/-- A finite number among the tokens of a text is natural. -/
theorem isNatural_of_number_mem (mem : .number x ∈ ofChars names text)
    (finite : x.isFinite = true) : Binary.IsNatural x := by
  obtain ⟨-, run, rfl⟩ := of_number_mem_ofChars mem
  exact Decimal.isNatural_ofDigits finite

/-- A token of a text that is no number is written with the characters it was read from. -/
theorem ofChars_text_of_ne_number (mem : t ∈ ofChars names text) (noNumber : ∀ x, t ≠ .number x) :
    ofChars names t.text.toList = [t] := by
  obtain ⟨piece, inCut, token⟩ := List.mem_filterMap.mp mem
  obtain ⟨c, rest, -, rfl⟩ := Piece.exists_next_of_mem_cut inCut
  have written : (Piece.next (names.map String.toList) c rest).chars = t.text.toList := by
    rcases Piece.next_of_token? token with ⟨letters, rfl, -, piece⟩ | ⟨run, same, -⟩ | ⟨sign, piece⟩
    · rw [piece]
      exact String.toList_ofList.symm
    · exact absurd same (noNumber _)
    · rw [piece]
      exact (ofSymbol?_eq_some sign).2.2.symm
  rw [ofChars, ← written, Piece.cut_chars_next, List.filterMap_cons_some token, List.filterMap_nil]

theorem ofChars_run_append (letters : Piece.NoDigitFirst names) {run rest : List Char} (ne : run ≠ [])
    (digits : ∀ c ∈ run, c.isDigit = true) (ends : ∀ c, rest.head? = some c → c.isDigit = false) :
    ofChars names (run ++ rest) = .number (Decimal.ofDigits run) :: ofChars names rest := by
  rw [ofChars, Piece.cut_run letters ne digits ends]
  rfl

theorem ofChars_run (letters : Piece.NoDigitFirst names) {run : List Char} (ne : run ≠ [])
    (digits : ∀ c ∈ run, c.isDigit = true) :
    ofChars names run = [.number (Decimal.ofDigits run)] := by
  have ends : ∀ c, ([] : List Char).head? = some c → c.isDigit = false := by
    intro c head
    cases head
  have alone := ofChars_run_append letters ne digits ends
  rw [List.append_nil] at alone
  rw [alone, ofChars_nil]

theorem ofChars_text_of_isNatural (letters : Piece.NoDigitFirst names)
    (natural : Binary.IsNatural x) : ofChars names (Decimal.text x).toList = [.number x] := by
  obtain ⟨ne, digits, read⟩ := Decimal.digits_text natural
  rw [ofChars_run letters ne digits, read]

/-- A finite token of a text reads back from its written form. -/
theorem ofChars_text (letters : Piece.NoDigitFirst names) (mem : t ∈ ofChars names text)
    (finite : ∀ x, t = .number x → x.isFinite = true) : ofChars names t.text.toList = [t] := by
  cases t with
  | number x =>
      exact ofChars_text_of_isNatural letters (isNatural_of_number_mem mem (finite x rfl))
  | _ => exact ofChars_text_of_ne_number mem fun x same => by cases same

/-- What reads back from the written form of a token is finite, because infinity is written without
digits. -/
theorem isFinite_of_number_mem_ofChars_text (letters : Piece.NoDigitFirst names)
    (mem : t ∈ ofChars names text) (back : .number x ∈ ofChars names t.text.toList) :
    x.isFinite = true := by
  cases t with
  | number y =>
      cases finite : y.isFinite with
      | false =>
          obtain ⟨⟨c, inText, digit⟩, -⟩ := of_number_mem_ofChars back
          rw [Decimal.not_isDigit_of_mem_text finite c inText] at digit
          cases digit
      | true =>
          have natural := isNatural_of_number_mem mem finite
          change .number x ∈ ofChars names (Decimal.text y).toList at back
          rw [ofChars_text_of_isNatural letters natural] at back
          cases List.mem_singleton.mp back
          exact finite
  | _ =>
      rw [ofChars_text_of_ne_number mem fun _ same => by cases same] at back
      cases List.mem_singleton.mp back

/-- The blanks between the tokens separate them. -/
theorem ofChars_listText (unbroken : Piece.Unbroken (names.map String.toList))
    (tokens : List Token) :
    ofChars names (listText tokens).toList =
      tokens.flatMap fun t => ofChars names t.text.toList := by
  rw [listText, String.toList_intercalate, List.map_map]
  induction tokens with
  | nil => rw [List.map_nil, List.intercalate_nil, List.flatMap_nil, ofChars_nil]
  | cons t tokens ih =>
      cases tokens with
      | nil =>
          rw [List.map_singleton, List.intercalate_singleton, List.flatMap_singleton]
          rfl
      | cons next rest =>
          have blank : Text.isBlank ' ' = true := by decide
          rw [List.map_cons, List.map_cons, List.intercalate_cons_cons, List.append_assoc]
          rw [List.map_cons] at ih
          rw [List.flatMap_cons, ← ih]
          exact ofChars_append_blank unbroken blank _ _

/-- The tokens of a text read back from their written form exactly if the numbers are finite. -/
theorem ofChars_listText_eq_self_iff (unbroken : Piece.Unbroken (names.map String.toList))
    (letters : Piece.NoDigitFirst names) (text : List Char) :
    ofChars names (listText (ofChars names text)).toList = ofChars names text ↔
      ∀ x, .number x ∈ ofChars names text → x.isFinite = true := by
  rw [ofChars_listText unbroken]
  constructor
  · intro same x mem
    rw [← same] at mem
    obtain ⟨t, inText, back⟩ := List.mem_flatMap.mp mem
    exact isFinite_of_number_mem_ofChars_text letters inText back
  · intro finite
    calc (ofChars names text).flatMap (fun t => ofChars names t.text.toList)
      _ = (ofChars names text).flatMap (fun t => [t]) :=
        List.flatMap_congr fun t mem => ofChars_text letters mem fun x same => finite x (same ▸ mem)
      _ = ofChars names text := List.flatMap_singleton' _

end Token

namespace Environment

/-- If no known name contains a blank or begins with a digit, the tokens of a text read back from their
written form exactly if all numbers among them are finite. Names may contain signs and begin with one
another. -/
theorem tokenize_listText_iff (env : Environment)
    (unbroken : ∀ name ∈ env.knownNames, ∀ c ∈ name.toList, Text.isBlank c = false)
    (letters : Piece.NoDigitFirst env.knownNames) (text : String) :
    env.tokenize (Token.listText (env.tokenize text.toList)).toList = env.tokenize text.toList ↔
      ∀ x, .number x ∈ env.tokenize text.toList → x.isFinite = true := by
  have unbroken : Piece.Unbroken (env.knownNames.map String.toList) :=
    List.forall_mem_map.mpr unbroken
  exact Token.ofChars_listText_eq_self_iff unbroken letters text.toList

/-- Names that overlap and contain a sign: the text is written again as `x+ x +x + 1 5`. -/
theorem tokenize_listText_iff_overlapping :
    let env := (((initial .default).setVariable "x+" 1).setVariable "+x" 2).setVariable "x" 3
    ((∀ name ∈ env.knownNames, ∀ c ∈ name.toList, Text.isBlank c = false) ∧
      Piece.NoDigitFirst env.knownNames) ∧
    env.tokenize "x+x +x+1.5".toList =
      [.name "x+", .name "x", .name "+x", .operator .add, .number 1, .number 5] ∧
    env.tokenize (Token.listText (env.tokenize "x+x +x+1.5".toList)).toList =
      env.tokenize "x+x +x+1.5".toList := by
  intro env
  have solid : ∀ name ∈ env.bindings.names ++ env.functions.names,
      name.toList.any Text.isBlank = false ∧ name.toList.head?.all (!·.isDigit) = true := by
    decide +kernel
  have unbroken : ∀ name ∈ env.knownNames, ∀ c ∈ name.toList, Text.isBlank c = false := by
    intro name known c mem
    have noBlank := (solid name (mem_knownNames.mp known)).1
    exact Bool.eq_false_iff.mpr (List.any_eq_false.mp noBlank c mem)
  have letters : Piece.NoDigitFirst env.knownNames := by
    intro name known c head
    have noDigit := (solid name (mem_knownNames.mp known)).2
    rw [Option.mem_def.mp head] at noDigit
    simpa using noDigit
  have tokens : env.tokenize "x+x +x+1.5".toList =
      [.name "x+", .name "x", .name "+x", .operator .add, .number 1, .number 5] := by
    rw [tokenize_eq_ofChars ["cosec", "sin", "cos", "tan", "sec", "csc", "cot", "abs", "exp", "x+",
      "+x", "pi", "ln", "x", "e"] (by decide +kernel) (by decide +kernel)]
    decide +kernel
  refine ⟨⟨unbroken, letters⟩, tokens, ?_⟩
  rw [tokenize_listText_iff env unbroken letters, tokens]
  intro x mem
  have oneOrFive : x = 1 ∨ x = 5 := by simpa using mem
  rcases oneOrFive with rfl | rfl
  · decide +kernel
  · decide +kernel

end Environment

end SeriesCalculator
