import SeriesCalculator.Proofs.Token.Blank

/-!
# The words of a text

The words of a text are what stands between blanks. Where no name contains a blank, the tokens of a
text are those of its words, one word after the other (`ofChars_eq_flatMap_words`). So a run of blanks
separates what is before it from what is behind it, and neither its length nor blanks at the ends of a
text count (`ofChars_separated`).
-/

namespace SeriesCalculator

namespace Text

/-- The longest parts of a text without blanks, in their order. -/
def words (text : List Char) : List (List Char) :=
  (text.splitOnP isBlank).filter (!·.isEmpty)

@[simp] theorem words_nil : words [] = [] := by
  simp [words, List.splitOnP_nil]

theorem words_append_blank {b : Char} (blank : isBlank b = true) (text rest : List Char) :
    words (text ++ b :: rest) = words text ++ words rest := by
  rw [words, List.splitOnP_append_cons _ _ blank, List.filter_append, words, words]

/-- A text without blanks is a word. -/
theorem words_of_unbroken {text : List Char} (ne : text ≠ [])
    (unbroken : ∀ c ∈ text, isBlank c = false) : words text = [text] := by
  rw [words, List.splitOnP_eq_singleton unbroken]
  simp [ne]

/-- Induction along the blanks of a text: it has none, or one of them separates two parts. -/
theorem blank_induction {motive : List Char → Prop}
    (word : ∀ text, (∀ c ∈ text, isBlank c = false) → motive text)
    (separated : ∀ text b rest, isBlank b = true → motive text → motive rest →
      motive (text ++ b :: rest))
    (text : List Char) : motive text := by
  induction length : text.length using Nat.strongRecOn generalizing text with
  | ind n ih =>
      by_cases broken : ∃ b ∈ text, isBlank b = true
      · obtain ⟨b, mem, blank⟩ := broken
        obtain ⟨front, behind, rfl⟩ := List.append_of_mem mem
        simp only [List.length_append, List.length_cons] at length
        exact separated front b behind blank (ih _ (by omega) _ rfl) (ih _ (by omega) _ rfl)
      · exact word text fun c mem => Bool.eq_false_iff.mpr fun blank => broken ⟨c, mem, blank⟩

end Text

namespace Token

variable {names : List String}

/-- The tokens of a text are those of its words. -/
theorem ofChars_eq_flatMap_words (unbroken : Piece.Unbroken (names.map String.toList))
    (text : List Char) : ofChars names text = (Text.words text).flatMap (ofChars names) := by
  induction text using Text.blank_induction with
  | word text whole =>
      rcases eq_or_ne text [] with rfl | ne
      · simp [ofChars]
      · rw [Text.words_of_unbroken ne whole, List.flatMap_singleton]
  | separated text b rest blank front behind =>
      rw [ofChars_append_blank unbroken blank, Text.words_append_blank blank, List.flatMap_append,
        front, behind]

/-- A run of blanks belongs to neither side. -/
theorem ofChars_append_blanks_append (unbroken : Piece.Unbroken (names.map String.toList))
    {blanks : List Char} (some : blanks ≠ []) (blank : ∀ c ∈ blanks, Text.isBlank c = true)
    (front behind : List Char) :
    ofChars names (front ++ blanks ++ behind) = ofChars names front ++ ofChars names behind := by
  obtain ⟨b, more, rfl⟩ := List.exists_cons_of_ne_nil some
  have rest : ∀ c ∈ more, Text.isBlank c = true := fun c mem => blank c (List.mem_cons_of_mem b mem)
  rw [List.append_assoc, List.cons_append, ofChars_append_blank unbroken (blank b List.mem_cons_self),
    ofChars_blanks_append unbroken rest]

/-- Where no name contains a blank, a run of blanks separates a text into two that are cut for
themselves. Blanks at the ends of a text and the length of a run do not count, and texts that consist
of the same words have the same tokens. -/
theorem ofChars_separated (unbroken : ∀ name ∈ names, ∀ c ∈ name.toList, Text.isBlank c = false) :
    (∀ front blanks behind, blanks ≠ [] → (∀ c ∈ blanks, Text.isBlank c = true) →
      ofChars names (front ++ blanks ++ behind) = ofChars names front ++ ofChars names behind) ∧
    (∀ blanks text, (∀ c ∈ blanks, Text.isBlank c = true) →
      ofChars names (blanks ++ text) = ofChars names text ∧
      ofChars names (text ++ blanks) = ofChars names text) ∧
    (∀ front blanks blanks' behind, blanks ≠ [] → (∀ c ∈ blanks, Text.isBlank c = true) →
      blanks' ≠ [] → (∀ c ∈ blanks', Text.isBlank c = true) →
      ofChars names (front ++ blanks ++ behind) = ofChars names (front ++ blanks' ++ behind)) ∧
    ∀ text text', Text.words text = Text.words text' →
      ofChars names text = ofChars names text' := by
  have unbroken : Piece.Unbroken (names.map String.toList) := by
    intro letters mem
    obtain ⟨name, known, rfl⟩ := List.mem_map.mp mem
    exact unbroken name known
  refine ⟨?_, ?_, ?_, ?_⟩
  · intro front blanks behind some blank
    exact ofChars_append_blanks_append unbroken some blank front behind
  · intro blanks text blank
    exact ⟨ofChars_blanks_append unbroken blank text, ofChars_append_blanks unbroken blank text⟩
  · intro front blanks blanks' behind some blank some' blank'
    rw [ofChars_append_blanks_append unbroken some blank,
      ofChars_append_blanks_append unbroken some' blank']
  · intro text text' same
    rw [ofChars_eq_flatMap_words unbroken, same, ← ofChars_eq_flatMap_words unbroken]

theorem ofChars_separated_halves :
    let names := ["pi", "p"]
    (∀ name ∈ names, ∀ c ∈ name.toList, Text.isBlank c = false) ∧
      ofChars names ['p', ' ', '\u3000', 'i', ')'] = [.name "p", .closing] ∧
      ofChars names ['\t', 'p', ' ', '\u3000', 'i', ')'] = ofChars names ['p', ' ', 'i', ')', ' '] := by
  intro names
  have letters : Text.isBlank 'p' = false ∧ Text.isBlank 'i' = false := by decide
  have unbroken : ∀ name ∈ names, ∀ c ∈ name.toList, Text.isBlank c = false := by
    simp [names, letters]
  have blank : [' ', '\u3000'].all Text.isBlank = true := by decide
  obtain ⟨halves, -, -, words⟩ := ofChars_separated unbroken
  refine ⟨unbroken, ?_, words _ _ (by decide +kernel)⟩
  have split := halves ['p'] _ ['i', ')'] (by simp) (List.all_eq_true.mp blank)
  have front : ofChars names ['p'] = [.name "p"] := by decide +kernel
  have behind : ofChars names ['i', ')'] = [.closing] := by decide +kernel
  rw [front, behind] at split
  exact split

end Token

end SeriesCalculator
