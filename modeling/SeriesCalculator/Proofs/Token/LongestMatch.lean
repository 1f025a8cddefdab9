import SeriesCalculator.Proofs.Environment.KnownNames
import SeriesCalculator.Proofs.Token.Offsets

/-!
# The longest match

What piece stands at the start of a text depends on the known names as a set: a blank, else the longest
known name there, else a run of digits that no digit follows, else a sign, else a character without a
meaning (`Leads`). These rules leave no choice, and they are those by which a text is cut
(`segmented_iff`). So the tokens of a text are those of its only segmentation by these rules, whether it
is cut by characters or by offsets in bytes, and the order in which names are tried does not count
except that longer names come first (`tokenize_longest_match`).
-/

namespace SeriesCalculator

namespace Piece

/-- The seven signs with their tokens. -/
def signs : List (Char × Token) :=
  [('^', .operator .power), ('+', .operator .add), ('-', .operator .subtract),
    ('*', .operator .multiply), ('/', .operator .divide), ('(', .opening), (')', .closing)]

theorem ofSymbol?_eq_some_iff {c : Char} {token : Token} :
    Token.ofSymbol? c = some token ↔ (c, token) ∈ signs := by
  constructor
  · intro is
    unfold Token.ofSymbol? at is
    split at is
    · cases is
      decide
    · cases is
      decide
    · obtain ⟨op, found, rfl⟩ := Option.map_eq_some_iff.mp is
      rw [Operator.ofSymbol?] at found
      obtain rfl : op.symbol = c := eq_of_beq (List.find?_some found :)
      cases op <;> decide
  · intro listed
    have table : ∀ sign ∈ signs, Token.ofSymbol? sign.1 = some sign.2 := by decide
    exact table _ listed

variable (known : String → Prop)

/-- A nonempty known name with which a text starts. -/
def NameAt (text : List Char) (name : String) : Prop :=
  known name ∧ name ≠ "" ∧ name.toList <+: text

/-- The piece that stands at the start of a text. -/
inductive Leads : List Char → Piece → Prop
  | blank {c rest} (blank : Text.isBlank c = true) : Leads (c :: rest) (.blank c)
  | name {c rest name} (notBlank : Text.isBlank c = false) (here : NameAt known (c :: rest) name)
      (longest : ∀ other, NameAt known (c :: rest) other → other.length ≤ name.length) :
      Leads (c :: rest) (.name name.toList)
  | digits {c run rest} (notBlank : Text.isBlank c = false)
      (noName : ∀ name, ¬ NameAt known (c :: (run ++ rest)) name)
      (digits : ∀ d ∈ c :: run, d.isDigit = true) (ends : ∀ d, rest.head? = some d → d.isDigit = false) :
      Leads (c :: (run ++ rest)) (.digits (c :: run))
  | symbol {c rest token} (notBlank : Text.isBlank c = false)
      (noName : ∀ name, ¬ NameAt known (c :: rest) name) (notDigit : c.isDigit = false)
      (sign : (c, token) ∈ signs) : Leads (c :: rest) (.symbol c token)
  | ignored {c rest} (notBlank : Text.isBlank c = false)
      (noName : ∀ name, ¬ NameAt known (c :: rest) name) (notDigit : c.isDigit = false)
      (noSign : ∀ token, (c, token) ∉ signs) : Leads (c :: rest) (.ignored c)

/-- A text as pieces from left to right, without gap or overlap, each of them the one that stands
there. -/
inductive Segmented : List Char → List Piece → Prop
  | nil : Segmented [] []
  | cons {piece pieces rest} (leads : Leads known (piece.chars ++ rest) piece)
      (later : Segmented rest pieces) : Segmented (piece.chars ++ rest) (piece :: pieces)

variable {known} {names : List String} {c : Char} {text rest : List Char}

theorem nameAt?_eq_none_iff (same : ∀ name, name ≠ "" → (name ∈ names ↔ known name)) :
    nameAt? (names.map String.toList) text = none ↔ ∀ name, ¬ NameAt known text name := by
  rw [nameAt?, List.find?_map, Option.map_eq_none_iff, List.find?_eq_none]
  constructor
  · rintro none name ⟨isKnown, ne, start⟩
    exact none name ((same name ne).mpr isKnown) (by simp [ne, start])
  · intro none name mem fits
    have : name ≠ "" ∧ name.toList <+: text := by simpa using fits
    exact none name ⟨(same name this.1).mp mem, this⟩

/-- The rules lead to the piece that is cut off. -/
theorem Leads.exists_eq_next {piece : Piece} (sorted : LongerFirst names)
    (same : ∀ name, name ≠ "" → (name ∈ names ↔ known name)) (leads : Leads known text piece) :
    ∃ c rest, text = c :: rest ∧ piece = next (names.map String.toList) c rest := by
  cases leads with
  | @blank c rest blank => exact ⟨c, rest, rfl, by rw [next, if_pos blank]⟩
  | @name c rest name notBlank here longest =>
      obtain ⟨isKnown, ne, start⟩ := here
      have found : nameAt? (names.map String.toList) (c :: rest) = some name.toList := by
        refine nameAt?_eq_some sorted ((same name ne).mpr isKnown) ne start ?_
        intro other mem otherStart
        by_cases empty : other = ""
        · simp [empty]
        · have shorter := longest other ⟨(same other empty).mp mem, empty, otherStart⟩
          rw [← String.length_toList, ← String.length_toList] at shorter
          exact List.prefix_of_prefix_length_le otherStart start shorter
      exact ⟨c, rest, rfl, by simp [next, notBlank, found]⟩
  | @digits c run rest notBlank noName digits ends =>
      have none := (nameAt?_eq_none_iff same).mpr noName
      have whole := takeWhile_isDigit_append (fun d mem => digits d (List.mem_cons_of_mem c mem)) ends
      exact ⟨c, run ++ rest, rfl, by simp [next, notBlank, none, digits c List.mem_cons_self, whole]⟩
  | @symbol c rest token notBlank noName notDigit sign =>
      have none := (nameAt?_eq_none_iff same).mpr noName
      have is := ofSymbol?_eq_some_iff.mpr sign
      exact ⟨c, rest, rfl, by simp [next, notBlank, none, notDigit, is]⟩
  | @ignored c rest notBlank noName notDigit noSign =>
      have none := (nameAt?_eq_none_iff same).mpr noName
      have is : Token.ofSymbol? c = .none := by
        cases symbol : Token.ofSymbol? c with
        | none => rfl
        | some token => exact absurd (ofSymbol?_eq_some_iff.mp symbol) (noSign token)
      exact ⟨c, rest, rfl, by simp [next, notBlank, none, notDigit, is]⟩

/-- A run of digits that is not cut short stands at the start where no name does. -/
theorem leads_digits (notBlank : Text.isBlank c = false)
    (noName : ∀ name, ¬ NameAt known (c :: rest) name) (digit : c.isDigit = true) :
    Leads known (c :: rest) (.digits (c :: rest.takeWhile Char.isDigit)) := by
  have whole : rest.takeWhile Char.isDigit ++ rest.dropWhile Char.isDigit = rest :=
    List.takeWhile_append_dropWhile
  have ends : ∀ d, (rest.dropWhile Char.isDigit).head? = some d → d.isDigit = false := by
    intro d head
    have first := List.head?_dropWhile_not Char.isDigit rest
    rw [head] at first
    exact first
  have leads := Leads.digits notBlank (by rwa [whole])
    (List.all_eq_true.mp (Token.all_isDigit_run rest digit)) ends
  rwa [whole] at leads

/-- The piece that is cut off stands at the start by the rules. -/
theorem leads_next (sorted : LongerFirst names)
    (same : ∀ name, name ≠ "" → (name ∈ names ↔ known name)) (c : Char) (rest : List Char) :
    Leads known (c :: rest) (next (names.map String.toList) c rest) := by
  unfold next
  split
  · exact .blank ‹_›
  rename_i notBlank
  rw [Bool.not_eq_true] at notBlank
  split
  · rename_i letters found
    obtain ⟨name, mem, rfl, ne, start, longest⟩ := exists_of_nameAt? sorted found
    refine .name notBlank ⟨(same name ne).mp mem, ne, start⟩ ?_
    rintro other ⟨isKnown, otherNe, otherStart⟩
    have within := longest other ((same other otherNe).mpr isKnown) otherStart
    rw [← String.length_toList, ← String.length_toList]
    exact within.length_le
  rename_i none
  have noName := (nameAt?_eq_none_iff same).mp none
  split
  · exact leads_digits notBlank noName ‹_›
  rename_i notDigit
  rw [Bool.not_eq_true] at notDigit
  split
  · rename_i token is
    exact .symbol notBlank noName notDigit (ofSymbol?_eq_some_iff.mp is)
  · rename_i is
    refine .ignored notBlank noName notDigit fun token sign => ?_
    rw [ofSymbol?_eq_some_iff.mpr sign] at is
    cases is

/-- There is one segmentation by the rules, and it is how the text is cut. -/
theorem segmented_iff (sorted : LongerFirst names)
    (same : ∀ name, name ≠ "" → (name ∈ names ↔ known name)) {pieces : List Piece} :
    Segmented known text pieces ↔ pieces = cut (names.map String.toList) text := by
  constructor
  · intro segmented
    induction segmented with
    | nil => rw [cut_nil]
    | @cons piece pieces rest leads later ih =>
        obtain ⟨c, tail, whole, rfl⟩ := leads.exists_eq_next sorted same
        rw [whole, cut_cons, ← whole, List.drop_left, ← ih]
  · rintro rfl
    induction text using cut_induction (names.map String.toList) with
    | nil =>
        rw [cut_nil]
        exact .nil
    | cons c rest ih =>
        have leads := leads_next sorted same c rest
        obtain ⟨tail, split⟩ := chars_next_isPrefix (names.map String.toList) c rest
        rw [cut_cons]
        rw [← split, List.drop_left] at ih ⊢
        rw [← split] at leads
        exact .cons leads ih

end Piece

namespace Environment

/-- A name is known if it is that of a variable or of a function. -/
def Knows (env : Environment) (name : String) : Prop :=
  env.bindings.contains name = true ∨ env.functions.contains name = true

/-- Cutting a text by offsets never fails. Its tokens are those of the pieces of the only segmentation
of the text in which each piece is the one that stands there, with the longest known name before
everything but a blank. They are the same for any order of the known names in which longer ones are
first. -/
theorem tokenize_longest_match (env : Environment) (text : String) :
    Token.scan env.knownNames text = .ok (env.tokenize text.toList) ∧
    (∃ pieces, (∀ other, Piece.Segmented env.Knows text.toList other ↔ other = pieces) ∧
      pieces.flatMap Piece.chars = text.toList ∧
      env.tokenize text.toList = pieces.filterMap Piece.token?) ∧
    ∀ names, Piece.LongerFirst names → (∀ name, name ≠ "" → (name ∈ names ↔ env.Knows name)) →
      Token.scan names text = .ok (env.tokenize text.toList) := by
  have sorted := longerFirst_knownNames env
  have known (name : String) (_ : name ≠ "") : name ∈ env.knownNames ↔ env.Knows name :=
    mem_knownNames_iff_contains
  refine ⟨Token.scan_eq _ text, ⟨_, fun other => Piece.segmented_iff sorted known,
    Piece.flatMap_chars_cut _ _, rfl⟩, ?_⟩
  intro names sorted' known'
  have same : Piece.cut (env.knownNames.map String.toList) text.toList =
      Piece.cut (names.map String.toList) text.toList :=
    Piece.cut_congr sorted sorted' fun name ne _ => (known name ne).trans (known' name ne).symm
  rw [Token.scan_eq, tokenize, Token.ofChars, Token.ofChars, same]

theorem tokenize_longest_match_accented :
    let env := (initial .default).setVariable "é" Scalar.pi
    let names :=
      ["cosec", "exp", "abs", "cot", "csc", "sec", "tan", "cos", "sin", "é", "ln", "pi", "e"]
    (Piece.LongerFirst names ∧ ∀ name, name ≠ "" → (name ∈ names ↔ env.Knows name)) ∧
      Token.scan names "cosecpié" = .ok (env.tokenize "cosecpié".toList) ∧
      env.tokenize "cosecpié".toList = [.name "cosec", .name "pi", .name "é"] := by
  intro env names
  have sorted : Piece.LongerFirst names := by decide +kernel
  have same : names.Perm (env.bindings.names ++ env.functions.names) := by decide +kernel
  have known (name : String) (_ : name ≠ "") : name ∈ names ↔ env.Knows name := by
    rw [same.mem_iff, ← mem_knownNames, mem_knownNames_iff_contains, Knows]
  have tokens := (tokenize_longest_match env "cosecpié").2.2 names sorted known
  refine ⟨⟨sorted, known⟩, tokens, ?_⟩
  rw [Token.scan_eq] at tokens
  rw [← Except.ok.inj tokens]
  decide +kernel

end Environment

end SeriesCalculator
