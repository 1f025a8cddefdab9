import SeriesCalculator.Token.Segmentation

/-!
# Where names, numbers and signs end

Names are tried from the longest to the shortest, so that of the names at the start of a text the
longest one is found (`nameAt?_eq_some`). A plain name contains no blank and no sign and does not
begin with a digit. Among plain names, a known name and a run of digits are cut off as a
whole if the text ends behind them or goes on with a sign, and a sign is always cut off alone.

All pieces of a text come from it. So how a text is cut depends on which names occur in it, and on no
other name (`cut_congr`).
-/

namespace SeriesCalculator

namespace Token

/-- The characters of the operators and of the parentheses. -/
def symbols : List Char := ['^', '/', '*', '+', '-', '(', ')']

theorem isDigit_iff {c : Char} : c.isDigit = true ↔ 48 ≤ c.toNat ∧ c.toNat ≤ 57 := by
  simp only [Char.isDigit, Bool.and_eq_true, decide_eq_true_eq, ge_iff_le, UInt32.le_iff_toNat_le]
  rfl

theorem not_blank_of_isDigit {c : Char} (digit : c.isDigit = true) : Text.isBlank c = false := by
  have range := isDigit_iff.mp digit
  simp [Text.isBlank, Text.blankRanges]
  omega

theorem not_blank_of_symbol {c : Char} (sign : c ∈ symbols) : Text.isBlank c = false := by
  have table : symbols.all (!Text.isBlank ·) = true := by decide
  simpa using List.all_eq_true.mp table c sign

theorem not_digit_of_symbol {c : Char} (sign : c ∈ symbols) : c.isDigit = false := by
  have table : symbols.all (!·.isDigit) = true := by decide
  simpa using List.all_eq_true.mp table c sign

theorem symbol_mem_symbols (op : Operator) : op.symbol ∈ symbols := by
  cases op <;> decide

theorem ofSymbol?_symbol_operator (op : Operator) : ofSymbol? op.symbol = some (.operator op) := by
  cases op <;> rfl

/-- A sign is the written form of its token, which is neither a number nor a name. -/
theorem ofSymbol?_eq_some {c : Char} {t : Token} (sign : ofSymbol? c = some t) :
    (∀ x, t ≠ .number x) ∧ (∀ n, t ≠ .name n) ∧ t.text.toList = [c] := by
  unfold ofSymbol? at sign
  split at sign
  · cases sign
    exact ⟨fun _ => Token.noConfusion, fun _ => Token.noConfusion, rfl⟩
  · cases sign
    exact ⟨fun _ => Token.noConfusion, fun _ => Token.noConfusion, rfl⟩
  · obtain ⟨op, found, rfl⟩ := Option.map_eq_some_iff.mp sign
    rw [Operator.ofSymbol?] at found
    obtain rfl : op.symbol = c := eq_of_beq (List.find?_some found :)
    exact ⟨fun _ => Token.noConfusion, fun _ => Token.noConfusion, String.toList_singleton _⟩

/-- A name that no blank, no sign and no number can be part of or be taken for. -/
structure PlainName (name : String) : Prop where
  ne_empty : name ≠ ""
  not_blank : ∀ c ∈ name.toList, Text.isBlank c = false
  not_symbol : ∀ c ∈ name.toList, c ∉ symbols
  not_digit : ∀ c ∈ name.toList.head?, c.isDigit = false

instance (name : String) : Decidable (PlainName name) :=
  decidable_of_iff (name ≠ "" ∧ name.toList.all (!Text.isBlank ·) = true ∧
      name.toList.all (!symbols.contains ·) = true ∧ name.toList.head?.all (!·.isDigit) = true)
    ⟨fun ⟨ne, blank, symbol, digit⟩ =>
      ⟨ne, by simpa using blank, by simpa using symbol, by simpa [Option.all_eq_true] using digit⟩,
    fun ⟨ne, blank, symbol, digit⟩ =>
      ⟨ne, by simpa using blank, by simpa using symbol, by simpa [Option.all_eq_true] using digit⟩⟩

/-- A text that ends at once or goes on with a sign. -/
def Delimited (text : List Char) : Prop :=
  ∀ c, text.head? = some c → c ∈ symbols

theorem delimited_cons {c : Char} (sign : c ∈ symbols) (rest : List Char) :
    Delimited (c :: rest) := by
  intro first head
  cases head
  exact sign

end Token

namespace Piece

open Token

/-- Names in an order in which no name stands behind a shorter one. -/
abbrev LongerFirst (names : List String) : Prop :=
  names.Pairwise fun a b => b.utf8ByteSize ≤ a.utf8ByteSize

theorem eq_of_isPrefix {a b : String} (start : a.toList <+: b.toList)
    (long : b.utf8ByteSize ≤ a.utf8ByteSize) : a = b := by
  obtain ⟨rest, whole⟩ := start
  obtain rfl : a ++ String.ofList rest = b := String.toList_injective (by simp [whole])
  rw [String.utf8ByteSize_append] at long
  have nothing : String.ofList rest = "" := String.utf8ByteSize_eq_zero_iff.mp (by omega)
  rw [nothing, String.append_empty]

/-- The longest name at the start of a text is the one that is found. -/
theorem nameAt?_eq_some {names : List String} {text : List Char} {name : String}
    (sorted : LongerFirst names) (mem : name ∈ names) (ne : name ≠ "")
    (start : name.toList <+: text)
    (longest : ∀ other ∈ names, other.toList <+: text → other.toList <+: name.toList) :
    nameAt? (names.map String.toList) text = some name.toList := by
  have fits : ∀ other : String, (!other.toList.isEmpty && other.toList.isPrefixOf text) = true ↔
      other ≠ "" ∧ other.toList <+: text := by
    intro other
    simp
  rw [nameAt?, List.find?_map, Option.map_eq_some_iff]
  cases found : names.find?
      ((fun name => !name.isEmpty && name.isPrefixOf text) ∘ String.toList) with
  | none =>
      have := List.find?_eq_none.mp found name mem
      exact absurd ((fits name).mpr ⟨ne, start⟩) this
  | some first =>
      obtain ⟨here, before, behind, rfl, earlier⟩ := List.find?_eq_some_iff_append.mp found
      obtain ⟨-, firstStart⟩ := (fits first).mp here
      refine ⟨first, rfl, ?_⟩
      have firstLong := longest first (by simp) firstStart
      -- the name cannot stand before the one that is found
      have position : name = first ∨ name ∈ behind := by
        rcases List.mem_append.mp mem with inFront | atOrBehind
        · have := earlier name inFront
          simp [(fits name).mpr ⟨ne, start⟩] at this
        · exact List.mem_cons.mp atOrBehind
      rcases position with rfl | later
      · rfl
      · have shorter := (List.pairwise_cons.mp (List.pairwise_append.mp sorted).2.1).1 name later
        exact congrArg String.toList (eq_of_isPrefix firstLong shorter)

theorem nameAt?_eq_none {names : List String} {c : Char} (rest : List Char)
    (other : ∀ name ∈ names, name.toList.head? ≠ some c) :
    nameAt? (names.map String.toList) (c :: rest) = none := by
  rw [nameAt?, List.find?_map, Option.map_eq_none_iff, List.find?_eq_none]
  intro name mem fits
  have := other name mem
  cases letters : name.toList with
  | nil => simp [letters] at fits
  | cons first letters' =>
      rw [letters] at this
      simp [letters] at fits
      simp [fits.1] at this

variable {names : List String} {rest : List Char}

/-- The letters of another name cannot go on behind the name, since a sign would be one of
them. -/
theorem isPrefix_of_isPrefix_append {name other : List Char} (delimited : Delimited rest)
    (letters : ∀ c ∈ other, c ∉ symbols) (start : other <+: name ++ rest) : other <+: name := by
  rcases List.prefix_or_prefix_of_prefix start (List.prefix_append name rest) with within | beyond
  · exact within
  · obtain ⟨more, rfl⟩ := beyond
    rw [List.prefix_append_right_inj] at start
    cases more with
    | nil => simp
    | cons c more =>
        obtain ⟨behind, rfl⟩ := start
        exact absurd (delimited c rfl) (letters c (by simp))

theorem cut_name (sorted : LongerFirst names) (plain : ∀ name ∈ names, PlainName name)
    {name : String} (mem : name ∈ names) (delimited : Delimited rest) :
    cut (names.map String.toList) (name.toList ++ rest) =
      .name name.toList :: cut (names.map String.toList) rest := by
  have isPlain := plain name mem
  have found : nameAt? (names.map String.toList) (name.toList ++ rest) = some name.toList :=
    nameAt?_eq_some sorted mem isPlain.ne_empty (List.prefix_append _ _) fun other otherMem =>
      isPrefix_of_isPrefix_append delimited (plain other otherMem).not_symbol
  cases letters : name.toList with
  | nil => exact absurd (String.toList_eq_nil_iff.mp letters) isPlain.ne_empty
  | cons c more =>
      have notBlank := isPlain.not_blank c (by simp [letters])
      rw [letters, List.cons_append] at found
      have first : next (names.map String.toList) c (more ++ rest) = .name (c :: more) := by
        simp [next, notBlank, found]
      rw [List.cons_append, cut_cons, first, chars, ← List.cons_append, List.drop_left]

/-- A run of digits is taken as a whole if no digit follows it. -/
theorem takeWhile_isDigit_append {run : List Char} (digits : ∀ c ∈ run, c.isDigit = true)
    (ends : ∀ c, rest.head? = some c → c.isDigit = false) :
    (run ++ rest).takeWhile Char.isDigit = run := by
  rw [List.takeWhile_append_of_pos digits]
  cases rest with
  | nil => simp
  | cons first rest => simp [ends first rfl]

/-- Names of which none begins with a digit. -/
abbrev NoDigitFirst (names : List String) : Prop :=
  ∀ name ∈ names, ∀ c ∈ name.toList.head?, c.isDigit = false

/-- A run of digits is cut off as a whole if no digit follows it. -/
theorem cut_run (letters : NoDigitFirst names) {run : List Char} (ne : run ≠ [])
    (digits : ∀ c ∈ run, c.isDigit = true) (ends : ∀ c, rest.head? = some c → c.isDigit = false) :
    cut (names.map String.toList) (run ++ rest) =
      .digits run :: cut (names.map String.toList) rest := by
  cases run with
  | nil => exact absurd rfl ne
  | cons c more =>
      have digit := digits c (by simp)
      have noName : nameAt? (names.map String.toList) (c :: (more ++ rest)) = none := by
        apply nameAt?_eq_none
        intro name mem head
        simp [letters name mem c head] at digit
      have whole : (more ++ rest).takeWhile Char.isDigit = more :=
        takeWhile_isDigit_append (fun c mem => digits c (by simp [mem])) ends
      have first : next (names.map String.toList) c (more ++ rest) = .digits (c :: more) := by
        simp [next, not_blank_of_isDigit digit, noName, digit, whole]
      rw [List.cons_append, cut_cons, first, chars, ← List.cons_append, List.drop_left]

theorem cut_digits (plain : ∀ name ∈ names, PlainName name) {run : List Char} (ne : run ≠ [])
    (digits : ∀ c ∈ run, c.isDigit = true) (delimited : Delimited rest) :
    cut (names.map String.toList) (run ++ rest) =
      .digits run :: cut (names.map String.toList) rest :=
  cut_run (fun name mem => (plain name mem).not_digit) ne digits fun first head =>
    not_digit_of_symbol (delimited first head)

/-- A sign is cut off alone if no name begins with it. -/
theorem cut_sign {c : Char} {token : Token} (other : ∀ name ∈ names, name.toList.head? ≠ some c)
    (sign : c ∈ symbols) (is : ofSymbol? c = some token) (rest : List Char) :
    cut (names.map String.toList) (c :: rest) =
      .symbol c token :: cut (names.map String.toList) rest := by
  have noName := nameAt?_eq_none rest other
  have first : next (names.map String.toList) c rest = .symbol c token := by
    simp [next, not_blank_of_symbol sign, noName, not_digit_of_symbol sign, is]
  rw [cut_cons, first]
  rfl

theorem cut_symbol (plain : ∀ name ∈ names, PlainName name) {c : Char} {token : Token}
    (sign : c ∈ symbols) (is : ofSymbol? c = some token) (rest : List Char) :
    cut (names.map String.toList) (c :: rest) =
      .symbol c token :: cut (names.map String.toList) rest := by
  refine cut_sign ?_ sign is rest
  intro name mem head
  exact (plain name mem).not_symbol c (List.mem_of_mem_head? head) sign

/-- The name that is found is the longest one at the start of the text. -/
theorem exists_of_nameAt? {names : List String} (sorted : LongerFirst names)
    {text letters : List Char} (found : nameAt? (names.map String.toList) text = some letters) :
    ∃ name ∈ names, letters = name.toList ∧ name ≠ "" ∧ name.toList <+: text ∧
      ∀ other ∈ names, other.toList <+: text → other.toList <+: name.toList := by
  have ne := ne_nil_of_nameAt? found
  have start := isPrefix_of_nameAt? found
  rw [nameAt?, List.find?_map, Option.map_eq_some_iff] at found
  obtain ⟨name, found, rfl⟩ := found
  obtain ⟨-, before, behind, rfl, earlier⟩ := List.find?_eq_some_iff_append.mp found
  have nonempty : name ≠ "" := fun empty => ne (empty ▸ rfl)
  refine ⟨name, by simp, rfl, nonempty, start, ?_⟩
  intro other mem otherStart
  by_cases empty : other = ""
  · simp [empty]
  rcases List.mem_append.mp mem with inFront | atOrBehind
  · have := earlier other inFront
    simp [empty, List.isPrefixOf_iff_prefix.mpr otherStart] at this
  rcases List.mem_cons.mp atOrBehind with rfl | later
  · exact List.prefix_rfl
  -- of two names at the start of the text one begins with the other
  rcases List.prefix_or_prefix_of_prefix otherStart start with within | beyond
  · exact within
  · have shorter := (List.pairwise_cons.mp (List.pairwise_append.mp sorted).2.1).1 other later
    exact eq_of_isPrefix beyond shorter ▸ List.prefix_rfl

section

variable {names names' : List String}

/-- Which name is found depends only on which names there are at the start of the text. -/
theorem nameAt?_congr (sorted : LongerFirst names) (sorted' : LongerFirst names') {text : List Char}
    (same : ∀ name, name ≠ "" → name.toList <+: text → (name ∈ names ↔ name ∈ names')) :
    nameAt? (names.map String.toList) text = nameAt? (names'.map String.toList) text := by
  have transfer {first second : List String} (sorted : LongerFirst first)
      (sorted' : LongerFirst second)
      (same : ∀ name, name ≠ "" → name.toList <+: text → (name ∈ first ↔ name ∈ second))
      {letters : List Char} (found : nameAt? (first.map String.toList) text = some letters) :
      nameAt? (second.map String.toList) text = some letters := by
    obtain ⟨name, mem, rfl, ne, start, longest⟩ := exists_of_nameAt? sorted found
    refine nameAt?_eq_some sorted' ((same name ne start).mp mem) ne start ?_
    intro other otherMem otherStart
    by_cases empty : other = ""
    · simp [empty]
    · exact longest other ((same other empty otherStart).mpr otherMem) otherStart
  cases found : nameAt? (names.map String.toList) text with
  | some letters => exact (transfer sorted sorted' same found).symm
  | none =>
      cases found' : nameAt? (names'.map String.toList) text with
      | none => rfl
      | some letters =>
          have back :=
            transfer sorted' sorted (fun name ne start => (same name ne start).symm) found'
          rw [found] at back
          cases back

/-- Induction along the cutting of a text: the text is empty, or its first piece is cut off. -/
theorem cut_induction (names : List (List Char)) {motive : List Char → Prop} (nil : motive [])
    (cons : ∀ c rest,
      motive ((c :: rest).drop (next names c rest).chars.length) → motive (c :: rest))
    (text : List Char) : motive text := by
  induction length : text.length using Nat.strongRecOn generalizing text with
  | ind n ih =>
      cases text with
      | nil => exact nil
      | cons c rest =>
          have pos := List.length_pos_iff.mpr (chars_next_ne_nil names c rest)
          refine cons c rest (ih _ ?_ _ rfl)
          simp only [List.length_drop, List.length_cons] at length ⊢
          omega

/-- How a text is cut depends only on which of the names occur in it, and not on the order of
names of the same length. -/
theorem cut_congr (sorted : LongerFirst names) (sorted' : LongerFirst names') {text : List Char}
    (same : ∀ name, name ≠ "" → name.toList <:+: text → (name ∈ names ↔ name ∈ names')) :
    cut (names.map String.toList) text = cut (names'.map String.toList) text := by
  induction text using cut_induction (names.map String.toList) with
  | nil => simp
  | cons c rest ih =>
      have found : nameAt? (names.map String.toList) (c :: rest) =
          nameAt? (names'.map String.toList) (c :: rest) :=
        nameAt?_congr sorted sorted' fun name ne start => same name ne start.isInfix
      have first : next (names.map String.toList) c rest =
          next (names'.map String.toList) c rest := by
        simp only [next, found]
      have later := ih fun name ne within =>
        same name ne (within.trans (List.drop_suffix _ _).isInfix)
      rw [cut_cons, cut_cons, later, first]

end

/-- Every piece stands at the start of a rest of the text. -/
theorem exists_next_of_mem_cut {names : List (List Char)} {text : List Char} {piece : Piece}
    (mem : piece ∈ cut names text) : ∃ c rest, c :: rest <:+ text ∧ piece = next names c rest := by
  induction text using cut_induction names with
  | nil => simp at mem
  | cons c rest ih =>
      rw [cut_cons] at mem
      rcases List.mem_cons.mp mem with rfl | later
      · exact ⟨c, rest, List.suffix_rfl, rfl⟩
      · obtain ⟨d, tail, ends, rfl⟩ := ih later
        exact ⟨d, tail, ends.trans (List.drop_suffix _ _), rfl⟩

/-- A token comes from a name that has been found, from digits or from a sign. -/
theorem next_of_token? {names : List (List Char)} {c : Char} {rest : List Char} {t : Token} :
    (next names c rest).token? = some t →
      (∃ letters, t = .name (String.ofList letters) ∧ nameAt? names (c :: rest) = some letters ∧
        next names c rest = .name letters) ∨
      (∃ run, t = .number (Decimal.ofDigits run) ∧ c.isDigit = true) ∨
      (ofSymbol? c = some t ∧ next names c rest = .symbol c t) := by
  unfold next
  split
  · intro token
    cases token
  split
  · rename_i letters found
    intro token
    cases token
    exact .inl ⟨letters, rfl, found, rfl⟩
  split
  · rename_i digit
    intro token
    cases token
    exact .inr (.inl ⟨_, rfl, digit⟩)
  split
  · rename_i sign
    intro token
    cases token
    exact .inr (.inr ⟨sign, rfl⟩)
  · intro token
    cases token

/-- Only a name that has been found gives a token that is a name. -/
theorem nameAt?_of_token?_next {names : List (List Char)} {c : Char} {rest : List Char}
    {name : String} (token : (next names c rest).token? = some (.name name)) :
    nameAt? names (c :: rest) = some name.toList ∧
      (next names c rest).chars = name.toList := by
  rcases next_of_token? token with ⟨letters, same, found, piece⟩ | ⟨run, same, -⟩ | ⟨sign, -⟩
  · cases same
    rw [String.toList_ofList, piece]
    exact ⟨found, rfl⟩
  · cases same
  · exact absurd rfl ((ofSymbol?_eq_some sign).2.1 name)

end Piece

/-- A name among the tokens of a text stands in the text. -/
theorem Token.isInfix_of_mem_ofChars {names : List String} {text : List Char} {name : String}
    (mem : .name name ∈ Token.ofChars names text) : name.toList <:+: text := by
  obtain ⟨piece, inCut, token⟩ := List.mem_filterMap.mp mem
  obtain ⟨c, rest, ends, rfl⟩ := Piece.exists_next_of_mem_cut inCut
  have start := Piece.chars_next_isPrefix (names.map String.toList) c rest
  rw [(Piece.nameAt?_of_token?_next token).2] at start
  exact start.isInfix.trans ends.isInfix

/-- A name among the tokens of a text is one of those that have been tried. -/
theorem Token.mem_of_name_mem_ofChars {names : List String} {text : List Char} {name : String}
    (mem : .name name ∈ Token.ofChars names text) : name ∈ names := by
  obtain ⟨piece, inCut, token⟩ := List.mem_filterMap.mp mem
  obtain ⟨c, rest, -, rfl⟩ := Piece.exists_next_of_mem_cut inCut
  have tried := List.mem_of_find?_eq_some (Piece.nameAt?_of_token?_next token).1
  obtain ⟨other, known, same⟩ := List.mem_map.mp tried
  exact String.toList_injective same ▸ known

end SeriesCalculator
