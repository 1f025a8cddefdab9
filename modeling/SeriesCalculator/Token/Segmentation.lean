import SeriesCalculator.Text.Blank
import SeriesCalculator.Token.Basic

/-!
# Cutting a text into tokens

A text is cut into pieces from left to right, without gaps. The piece at a position is a blank; else
the first of the given names that stands there; else a run of decimal digits, as long as possible; else
a sign; else a single character without a meaning, which is passed over. A point is such a character,
so it ends a number. The pieces put together are the text, and some of them are tokens.
-/

namespace SeriesCalculator

/-- A part of a text. -/
inductive Piece
  | blank (c : Char)
  | name (letters : List Char)
  | digits (run : List Char)
  | symbol (c : Char) (token : Token)
  | ignored (c : Char)
  deriving DecidableEq

namespace Piece

/-- The characters of a piece. -/
def chars : Piece → List Char
  | blank c => [c]
  | name letters => letters
  | digits run => run
  | symbol c _ => [c]
  | ignored c => [c]

/-- The token of a piece; blanks and characters without a meaning have none. -/
def token? : Piece → Option Token
  | blank _ => none
  | name letters => some (.name (String.ofList letters))
  | digits run => some (.number (Decimal.ofDigits run))
  | symbol _ token => some token
  | ignored _ => none

/-- The first nonempty name that a text begins with. -/
def nameAt? (names : List (List Char)) (text : List Char) : Option (List Char) :=
  names.find? fun name => !name.isEmpty && name.isPrefixOf text

/-- The piece at the start of the text `c :: rest`. -/
def next (names : List (List Char)) (c : Char) (rest : List Char) : Piece :=
  if Text.isBlank c then blank c
  else
    match nameAt? names (c :: rest) with
    | some found => name found
    | none =>
      if c.isDigit then digits (c :: rest.takeWhile Char.isDigit)
      else
        match Token.ofSymbol? c with
        | some token => symbol c token
        | none => ignored c

theorem ne_nil_of_nameAt? {names : List (List Char)} {text name : List Char}
    (found : nameAt? names text = some name) : name ≠ [] := by
  have := List.find?_some found
  simp only [Bool.and_eq_true, Bool.not_eq_true', List.isEmpty_eq_false_iff] at this
  exact this.1

theorem isPrefix_of_nameAt? {names : List (List Char)} {text name : List Char}
    (found : nameAt? names text = some name) : name <+: text := by
  have := List.find?_some found
  simp only [Bool.and_eq_true] at this
  exact List.isPrefixOf_iff_prefix.mp this.2

/-- A piece is never empty. -/
theorem chars_next_ne_nil (names : List (List Char)) (c : Char) (rest : List Char) :
    (next names c rest).chars ≠ [] := by
  unfold next
  split
  · simp [chars]
  split
  · exact ne_nil_of_nameAt? ‹_›
  split
  · simp [chars]
  split <;> simp [chars]

/-- A piece stands at the start of its text. -/
theorem chars_next_isPrefix (names : List (List Char)) (c : Char) (rest : List Char) :
    (next names c rest).chars <+: c :: rest := by
  unfold next
  split
  · exact List.prefix_append [c] rest
  split
  · exact isPrefix_of_nameAt? ‹_›
  split
  · exact List.cons_prefix_cons.mpr ⟨rfl, List.takeWhile_prefix _⟩
  split <;> exact List.prefix_append [c] rest

/-- Cuts a text after the pieces `done`, of which the last comes first. -/
def cutAfter (names : List (List Char)) (done : List Piece) : List Char → List Piece
  | [] => done.reverse
  | c :: rest =>
    let piece := next names c rest
    cutAfter names (piece :: done) ((c :: rest).drop piece.chars.length)
termination_by text => text.length
decreasing_by
  have := List.length_pos_iff.mpr (chars_next_ne_nil names c rest)
  simp only [List.length_drop, List.length_cons]
  omega

/-- The pieces of a text. -/
def cut (names : List (List Char)) (text : List Char) : List Piece :=
  cutAfter names [] text

theorem cutAfter_eq (names : List (List Char)) (done : List Piece) (text : List Char) :
    cutAfter names done text = done.reverse ++ cut names text := by
  have general : ∀ (n : Nat) (text : List Char), text.length ≤ n → ∀ done,
      cutAfter names done text = done.reverse ++ cutAfter names [] text := by
    intro n
    induction n with
    | zero =>
      intro text short done
      obtain rfl := List.length_eq_zero_iff.mp (Nat.le_zero.mp short)
      simp [cutAfter]
    | succ n ih =>
      intro text short done
      cases text with
      | nil => simp [cutAfter]
      | cons c rest =>
        have shorter : ((c :: rest).drop (next names c rest).chars.length).length ≤ n := by
          have := List.length_pos_iff.mpr (chars_next_ne_nil names c rest)
          simp only [List.length_drop]
          omega
        rw [cutAfter, cutAfter, ih _ shorter, ih _ shorter [_]]
        simp
  exact general _ text (Nat.le_refl _) done

@[simp] theorem cut_nil (names : List (List Char)) : cut names [] = [] := by
  simp [cut, cutAfter]

/-- The first piece is cut off, and the rest is cut in the same way. -/
theorem cut_cons (names : List (List Char)) (c : Char) (rest : List Char) :
    cut names (c :: rest) =
      next names c rest :: cut names ((c :: rest).drop (next names c rest).chars.length) := by
  rw [cut, cutAfter, cutAfter_eq]
  rfl

/-- Nothing is lost and nothing is added: the pieces make up the text. -/
theorem flatMap_chars_cut (names : List (List Char)) (text : List Char) :
    (cut names text).flatMap chars = text := by
  have general : ∀ (n : Nat) (text : List Char), text.length ≤ n →
      (cut names text).flatMap chars = text := by
    intro n
    induction n with
    | zero =>
      intro text short
      obtain rfl := List.length_eq_zero_iff.mp (Nat.le_zero.mp short)
      simp
    | succ n ih =>
      intro text short
      cases text with
      | nil => simp
      | cons c rest =>
        have shorter : ((c :: rest).drop (next names c rest).chars.length).length ≤ n := by
          have := List.length_pos_iff.mpr (chars_next_ne_nil names c rest)
          simp only [List.length_drop]
          omega
        rw [cut_cons, List.flatMap_cons, ih _ shorter]
        obtain ⟨tail, split⟩ := chars_next_isPrefix names c rest
        rw [← split, List.drop_left]
  exact general _ text (Nat.le_refl _)

end Piece

namespace Token

/-- The tokens of a text for names that are tried in the given order. -/
def ofChars (names : List String) (text : List Char) : List Token :=
  (Piece.cut (names.map String.toList) text).filterMap Piece.token?

end Token

end SeriesCalculator
