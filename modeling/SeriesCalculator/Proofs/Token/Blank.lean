import Mathlib.Data.List.Find
import Mathlib.Data.List.TakeWhile
import SeriesCalculator.Proofs.Token.Segmentation

/-!
# Blanks between tokens

A blank is part of no token, as long as no name contains one: a name that would reach past the blank
would contain it, and a run of digits ends in front of it. So a text is always cut where a blank
stands, and what is before and behind the blank is cut as if it stood alone (`cut_append_blank`).
In particular blanks at the ends of a text do not count (`ofChars_trim`).
-/

namespace SeriesCalculator

namespace Text

/-- The blanks at the two ends, which trimming takes off. -/
theorem exists_blanks_append_trim (text : List Char) :
    ∃ front behind, text = front ++ trim text ++ behind ∧
      (∀ c ∈ front, isBlank c = true) ∧ ∀ c ∈ behind, isBlank c = true := by
  have front := List.takeWhile_append_dropWhile (p := isBlank) (l := text)
  have back :=
    List.takeWhile_append_dropWhile (p := isBlank) (l := (text.dropWhile isBlank).reverse)
  refine ⟨text.takeWhile isBlank, ((text.dropWhile isBlank).reverse.takeWhile isBlank).reverse,
    ?_, ?_, ?_⟩
  · rw [trim, List.append_assoc, ← List.reverse_append, back, List.reverse_reverse, front]
  · intro c mem
    exact List.mem_takeWhile_imp mem
  · intro c mem
    exact List.mem_takeWhile_imp (List.mem_reverse.mp mem)

theorem isEmpty_trim_eq_false {text : List Char} (h : ∃ c ∈ text, isBlank c = false) :
    (trim text).isEmpty = false := by
  obtain ⟨c, mem, notBlank⟩ := h
  obtain ⟨front, behind, whole, frontBlank, behindBlank⟩ := exists_blanks_append_trim text
  rw [List.isEmpty_eq_false_iff]
  intro nothing
  have blank : isBlank c = true := by
    rw [whole, nothing, List.append_nil] at mem
    rcases List.mem_append.mp mem with inFront | inBehind
    · exact frontBlank c inFront
    · exact behindBlank c inBehind
  rw [blank] at notBlank
  cases notBlank

end Text

namespace Piece

/-- Names of which none contains a blank. -/
abbrev Unbroken (names : List (List Char)) : Prop :=
  ∀ name ∈ names, ∀ c ∈ name, Text.isBlank c = false

variable {names : List (List Char)} {b : Char}

theorem isPrefix_append_blank_iff {name text : List Char}
    (unbroken : ∀ c ∈ name, Text.isBlank c = false) (blank : Text.isBlank b = true)
    (rest : List Char) : name <+: text ++ b :: rest ↔ name <+: text := by
  constructor
  · intro start
    rcases List.prefix_or_prefix_of_prefix start (List.prefix_append text _) with within | beyond
    · exact within
    · obtain ⟨tail, rfl⟩ := beyond
      cases tail with
      | nil => simp
      | cons c tail =>
          -- the name would go on with the blank
          obtain ⟨rfl, -⟩ := List.cons_prefix_cons.mp ((List.prefix_append_right_inj text).mp start)
          rw [unbroken c (by simp)] at blank
          cases blank
  · intro start
    exact start.trans (List.prefix_append text _)

theorem nameAt?_append_blank (unbroken : Unbroken names) (blank : Text.isBlank b = true)
    (text rest : List Char) : nameAt? names (text ++ b :: rest) = nameAt? names text := by
  apply List.find?_congr
  intro name mem
  have same : name <+: text ++ b :: rest ↔ name <+: text :=
    isPrefix_append_blank_iff (unbroken name mem) blank rest
  congr 1
  rw [Bool.eq_iff_iff, List.isPrefixOf_iff_prefix, List.isPrefixOf_iff_prefix]
  exact same

theorem takeWhile_isDigit_append_blank (blank : Text.isBlank b = true) (text rest : List Char) :
    (text ++ b :: rest).takeWhile Char.isDigit = text.takeWhile Char.isDigit := by
  have notDigit : b.isDigit = false := by
    cases digit : b.isDigit with
    | false => rfl
    | true =>
        rw [Token.not_blank_of_isDigit digit] at blank
        cases blank
  induction text with
  | nil => simp [notDigit]
  | cons c text ih => simp only [List.cons_append, List.takeWhile_cons, ih]

theorem next_append_blank (unbroken : Unbroken names) (blank : Text.isBlank b = true) (c : Char)
    (text rest : List Char) : next names c (text ++ b :: rest) = next names c text := by
  have found := nameAt?_append_blank unbroken blank (c :: text) rest
  rw [List.cons_append] at found
  simp only [next, found, takeWhile_isDigit_append_blank blank]

/-- A blank separates: both sides of it are cut for themselves. -/
theorem cut_append_blank (unbroken : Unbroken names) (blank : Text.isBlank b = true)
    (text rest : List Char) :
    cut names (text ++ b :: rest) = cut names text ++ .blank b :: cut names rest := by
  induction text using cut_induction names with
  | nil =>
      have first : next names b rest = .blank b := by simp only [next, if_pos blank]
      rw [List.nil_append, cut_cons, first, cut_nil]
      rfl
  | cons c text ih =>
      have within := (chars_next_isPrefix names c text).length_le
      rw [List.cons_append, cut_cons, next_append_blank unbroken blank, cut_cons,
        ← List.cons_append, List.drop_append_of_le_length within, ih]
      rfl

end Piece

namespace Token

variable {names : List String} {b : Char}

theorem ofChars_append_blank (unbroken : Piece.Unbroken (names.map String.toList))
    (blank : Text.isBlank b = true) (text rest : List Char) :
    ofChars names (text ++ b :: rest) = ofChars names text ++ ofChars names rest := by
  simp only [ofChars, Piece.cut_append_blank unbroken blank, List.filterMap_append]
  rfl

theorem ofChars_blanks_append (unbroken : Piece.Unbroken (names.map String.toList))
    {blanks : List Char} (blank : ∀ c ∈ blanks, Text.isBlank c = true) (text : List Char) :
    ofChars names (blanks ++ text) = ofChars names text := by
  induction blanks with
  | nil => rfl
  | cons b blanks ih =>
      have rest := ih fun c mem => blank c (List.mem_cons_of_mem _ mem)
      have first := ofChars_append_blank unbroken (blank b List.mem_cons_self) [] (blanks ++ text)
      rw [List.nil_append, rest] at first
      rw [List.cons_append, first]
      simp [ofChars]

theorem ofChars_append_blanks (unbroken : Piece.Unbroken (names.map String.toList))
    {blanks : List Char} (blank : ∀ c ∈ blanks, Text.isBlank c = true) (text : List Char) :
    ofChars names (text ++ blanks) = ofChars names text := by
  cases blanks with
  | nil => rw [List.append_nil]
  | cons b blanks =>
      have nothing := ofChars_blanks_append unbroken
        (fun c mem => blank c (List.mem_cons_of_mem b mem)) []
      rw [List.append_nil] at nothing
      rw [ofChars_append_blank unbroken (blank b List.mem_cons_self), nothing]
      simp [ofChars]

/-- Blanks at the ends of a text do not count. -/
theorem ofChars_trim (unbroken : Piece.Unbroken (names.map String.toList)) (text : List Char) :
    ofChars names (Text.trim text) = ofChars names text := by
  obtain ⟨front, behind, whole, frontBlank, behindBlank⟩ := Text.exists_blanks_append_trim text
  calc ofChars names (Text.trim text)
    _ = ofChars names (front ++ Text.trim text) :=
      (ofChars_blanks_append unbroken frontBlank _).symm
    _ = ofChars names (front ++ Text.trim text ++ behind) :=
      (ofChars_append_blanks unbroken behindBlank _).symm
    _ = ofChars names text := by rw [← whole]

end Token

end SeriesCalculator
