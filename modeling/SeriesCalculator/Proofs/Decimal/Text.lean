import SeriesCalculator.Decimal.Text
import SeriesCalculator.Proofs.Binary.Whole
import SeriesCalculator.Proofs.Decimal.Shortest

/-!
# Whole doubles are written with digits and read back

A natural number among the doubles is written as a run of decimal digits, without a sign and
without a point, and the run is read as the same double. The digits need not be those of the
number itself: they are those of the shortest decimal number that is rounded to it. The other way
round a run of digits is read as a natural number, or as infinity (`isNatural_ofDigits`).

The text of a finite double has digits before the point and after it, and no others than these and
a sign and the point (`toList_text`). So the digits after the point of a text are those that are
counted (`length_afterPoint_text`).
-/

namespace SeriesCalculator.Decimal

variable {x : Float}

theorem chars_positional (digits k : Nat) :
    (positional { digits, exponent := k }).chars = Nat.toDigits 10 (digits * powerOfTen k) := by
  have places : (-(k : Int)).toNat = 0 := Int.toNat_neg_natCast k
  have unit : powerOfTen 0 = 1 := rfl
  simp [positional, Positional.chars, places, unit]

/-- The whole number whose digits are the text of a natural double. -/
theorem exists_toList_text (h : Binary.IsNatural x) :
    ∃ n, (text x).toList = Nat.toDigits 10 n ∧ Binary.ofNat n = x := by
  have written : (text x).toList = (positionalOf x).chars := by
    rw [text, Binary.isNaN_eq_false h.finite, h.finite, h.positive]
    simp
  rw [written, positionalOf]
  by_cases pos : (Binary.decode x).mantissa = 0
  · refine ⟨0, ?_, Binary.ofNat_zero_of_mantissa h pos⟩
    rw [shortest, if_pos pos]
    exact chars_positional 0 0
  · obtain ⟨n, whole⟩ := h.whole
    obtain ⟨digits, k, answer, rounds⟩ :=
      Neighbourhood.exists_shortest_eq (Binary.canonical_decode h.finite) pos whole
    exact ⟨digits * powerOfTen k, by rw [answer, chars_positional],
      Binary.ofNat_eq_of_roundsTo h pos rounds⟩

/-- The text of a natural double is a run of digits that is read as this double. -/
theorem digits_text (h : Binary.IsNatural x) :
    (text x).toList ≠ [] ∧ (∀ c ∈ (text x).toList, c.isDigit = true) ∧
      ofDigits (text x).toList = x := by
  obtain ⟨n, written, read⟩ := exists_toList_text h
  rw [written]
  refine ⟨Nat.toDigits_ne_nil, ?_, ?_⟩
  · exact fun c mem => Nat.isDigit_of_mem_toDigits (by decide) (by decide) mem
  · rw [ofDigits, Nat.ofDigitChars_ten_toDigits, read]

/-- A run of digits is read as a natural double, unless its number is too large. -/
theorem isNatural_ofDigits {run : List Char} (finite : (ofDigits run).isFinite = true) :
    Binary.IsNatural (ofDigits run) :=
  Binary.isNatural_ofNat finite

theorem isDigit_of_mem_whole (d : Decimal) : ∀ c ∈ d.positional.whole, c.isDigit = true :=
  fun _ mem => Nat.isDigit_of_mem_toDigits (by decide) (by decide) mem

theorem whole_ne_nil (d : Decimal) : d.positional.whole ≠ [] := Nat.toDigits_ne_nil

theorem isDigit_of_mem_fraction (d : Decimal) : ∀ c ∈ d.positional.fraction, c.isDigit = true := by
  intro c mem
  rw [positional] at mem
  dsimp only at mem
  split at mem
  · cases mem
  · rcases List.mem_append.mp mem with padding | digit
    · rw [List.eq_of_mem_replicate padding]
      decide
    · exact Nat.isDigit_of_mem_toDigits (by decide) (by decide) digit

theorem toList_text (finite : x.isFinite = true) :
    (text x).toList =
      (if (Binary.decode x).negative then ['-'] else []) ++ (positionalOf x).chars := by
  rw [text, Binary.isNaN_eq_false finite, finite]
  simp only [Bool.false_eq_true, if_false, if_true]
  split
  · rw [String.toList_append]
    exact congrArg ('-' :: ·) String.toList_ofList
  · rw [String.toList_ofList, List.nil_append]

/-- The text of a double that is not finite has no digits. -/
theorem not_isDigit_of_mem_text (infinite : x.isFinite = false) :
    ∀ c ∈ (text x).toList, c.isDigit = false := by
  have word : text x = "NaN" ∨ text x = "-inf" ∨ text x = "inf" := by
    rw [text, infinite]
    cases x.isNaN with
    | true => exact .inl rfl
    | false =>
        cases (Binary.decode x).negative with
        | true => exact .inr (.inl rfl)
        | false => exact .inr (.inr rfl)
  have table : ∀ word ∈ ["NaN", "-inf", "inf"], word.toList.all (!·.isDigit) = true := by decide
  have none := table (text x) (by simpa using word)
  simpa using none

/-- The characters after the first point of a text, none if there is no point. -/
def afterPoint (s : String) : List Char := (s.toList.dropWhile (· ≠ '.')).tail

theorem ne_point_of_isDigit {c : Char} (digit : c.isDigit = true) : c ≠ '.' := by
  rintro rfl
  exact absurd digit (by decide)

theorem tail_dropWhile_chars {p : Positional} (whole : ∀ c ∈ p.whole, c ≠ '.') :
    (p.chars.dropWhile (· ≠ '.')).tail = p.fraction := by
  rw [Positional.chars]
  split
  · rename_i empty
    rw [List.dropWhile_eq_nil_iff.mpr (by simpa using whole), empty]
    rfl
  · rw [List.dropWhile_append_of_pos (by simpa using whole)]
    rfl

theorem ne_point_of_mem_whole (d : Decimal) : ∀ c ∈ d.positional.whole, c ≠ '.' :=
  fun c mem => ne_point_of_isDigit (isDigit_of_mem_whole d c mem)

theorem afterPoint_signed (negative : Bool) (magnitude : String) :
    afterPoint (if negative then "-" ++ magnitude else magnitude) = afterPoint magnitude := by
  cases negative with
  | false => rfl
  | true =>
      rw [if_pos rfl, afterPoint, String.toList_append]
      rfl

/-- The number of digits after the point is read off the text. -/
theorem length_afterPoint_text (x : Float) : (afterPoint (text x)).length = fractionDigits x := by
  cases finite : x.isFinite with
  | false =>
      simp only [fractionDigits, text, finite, Bool.false_eq_true, if_false]
      split
      · rfl
      · rw [afterPoint_signed]
        rfl
  | true =>
      simp only [fractionDigits, text, Binary.isNaN_eq_false finite, finite, Bool.false_eq_true,
        if_false, if_true]
      rw [afterPoint_signed, afterPoint, String.toList_ofList, positionalOf,
        tail_dropWhile_chars (ne_point_of_mem_whole _)]

end SeriesCalculator.Decimal
