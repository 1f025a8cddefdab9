import SeriesCalculator.Proofs.Token.Segmentation

/-!
# Cutting a text by offsets

A text in its UTF-8 form can be cut by a position in bytes, which moves on by one character, by a name or
by a run of bytes that are digits. Such a scan fails where a slice would begin or end inside a character,
and where a run that is read as a number is none. It never does: the position is always the end of a
piece, and the scan finds the tokens of the pieces (`scan_eq`).
-/

namespace SeriesCalculator.Token

/-- Why a scan by offsets stops. -/
inductive ScanFault
  /-- A slice would begin or end inside a character, or behind the end of the text. -/
  | notBoundary (offset : Nat)
  /-- What is read as a number is no run of digits. -/
  | notNumber (run : String)
  deriving DecidableEq

/-- The text from an offset on. -/
def textFrom (text : String) (offset : Nat) : Except ScanFault String :=
  if boundary : (String.Pos.Raw.mk offset).IsValid text then
    .ok (text.sliceFrom (text.pos ⟨offset⟩ boundary)).copy
  else .error (.notBoundary offset)

/-- The text up to an offset. -/
def textTo (text : String) (offset : Nat) : Except ScanFault String :=
  if boundary : (String.Pos.Raw.mk offset).IsValid text then
    .ok (text.sliceTo (text.pos ⟨offset⟩ boundary)).copy
  else .error (.notBoundary offset)

/-- Tells whether a byte is the code of a digit. -/
def isDigitByte (b : UInt8) : Bool := 48 ≤ b.toNat && b.toNat ≤ 57

/-- The number of bytes at the start of a text that are codes of digits. -/
def digitBytes (text : String) : Nat :=
  (text.toByteArray.data.toList.takeWhile isDigitByte).length

/-- The number that a run of digits stands for. -/
def readNumber (run : String) : Except ScanFault Float :=
  if run ≠ "" ∧ run.toList.all Char.isDigit = true then .ok (Decimal.ofDigits run.toList)
  else .error (.notNumber run)

/-- What is found at a position: at most one token, and how far the position moves on. -/
structure Found where
  token? : Option Token
  size : Nat
  size_pos : 0 < size

/-- The first nonempty name that a text starts with. -/
def nameFrom? (names : List String) (text : String) : Option String :=
  names.find? fun name => !name.isEmpty && text.startsWith name

theorem utf8ByteSize_pos_of_nameFrom? {names : List String} {text known : String}
    (found : nameFrom? names text = some known) : 0 < known.utf8ByteSize := by
  have fits := List.find?_some found
  rw [Nat.pos_iff_ne_zero, ne_eq, String.utf8ByteSize_eq_zero_iff]
  rintro rfl
  simp at fits

/-- What is found at the start of a text with the first character `c`. -/
def findAt (names : List String) (c : Char) (text : String) : Except ScanFault Found :=
  if Text.isBlank c then .ok ⟨none, c.utf8Size, c.utf8Size_pos⟩
  else
    match found : nameFrom? names text with
    | some known => .ok ⟨some (.name known), known.utf8ByteSize, utf8ByteSize_pos_of_nameFrom? found⟩
    | none =>
      if some : digitBytes text ≠ 0 then do
        let value ← readNumber (← textTo text (digitBytes text))
        return ⟨.some (.number value), digitBytes text, Nat.pos_of_ne_zero some⟩
      else .ok ⟨ofSymbol? c, c.utf8Size, c.utf8Size_pos⟩

/-- The tokens of a text from an offset on. -/
def scanFrom (names : List String) (text : String) (offset : Nat) :
    Except ScanFault (List Token) := do
  if offset < text.utf8ByteSize then
    let rest ← textFrom text offset
    match rest.toList.head? with
    | none => return []
    | some c =>
      let found ← findAt names c rest
      return found.token?.toList ++ (← scanFrom names text (offset + found.size))
  else return []
termination_by text.utf8ByteSize - offset
decreasing_by
  have := found.size_pos
  omega

/-- The tokens of a text. -/
def scan (names : List String) (text : String) : Except ScanFault (List Token) :=
  scanFrom names text 0

/-- A part of a text ends at a boundary. -/
theorem isValid_utf8ByteSize (front behind : String) :
    (String.Pos.Raw.mk front.utf8ByteSize).IsValid (front ++ behind) :=
  String.Pos.Raw.isValid_iff_exists_append.mpr ⟨front, behind, rfl, rfl⟩

theorem textFrom_append (front behind : String) :
    textFrom (front ++ behind) front.utf8ByteSize = .ok behind := by
  have boundary := isValid_utf8ByteSize front behind
  have splits : ((front ++ behind).pos _ boundary).Splits front behind := ⟨rfl, rfl⟩
  rw [textFrom, dif_pos boundary]
  congr 1
  exact ((String.Pos.splits _).eq_right splits)

theorem textTo_append (front behind : String) :
    textTo (front ++ behind) front.utf8ByteSize = .ok front := by
  have boundary := isValid_utf8ByteSize front behind
  have splits : ((front ++ behind).pos _ boundary).Splits front behind := ⟨rfl, rfl⟩
  rw [textTo, dif_pos boundary]
  congr 1
  exact ((String.Pos.splits _).eq_left splits)

theorem bytes_eq_flatMap (text : String) :
    text.toByteArray.data.toList = text.toList.flatMap String.utf8EncodeChar := by
  rw [← String.utf8Encode_toList, List.utf8Encode, List.toList_data_toByteArray]

theorem utf8EncodeChar_of_isDigit {c : Char} (digit : c.isDigit = true) :
    c.utf8Size = 1 ∧ ∃ b, String.utf8EncodeChar c = [b] ∧ isDigitByte b = true := by
  have range : 48 ≤ c.val.toNat ∧ c.val.toNat ≤ 57 := isDigit_iff.mp digit
  have single : c.utf8Size = 1 := by
    rw [Char.utf8Size_eq_one_iff, UInt32.le_iff_toNat_le]
    exact Nat.le_trans range.2 (by decide)
  refine ⟨single, _, String.utf8EncodeChar_eq_singleton single, ?_⟩
  simp only [isDigitByte, Bool.and_eq_true, decide_eq_true_eq, UInt32.toNat_toUInt8]
  omega

/-- The first byte of a longer form has its two highest bits set. -/
theorem isDigitByte_or_eq_false {b mark : UInt8} (high : 57 < mark.toNat) :
    isDigitByte (b ||| mark) = false := by
  have above : mark.toNat ≤ (b ||| mark).toNat := by
    rw [UInt8.toNat_or]
    exact Nat.right_le_or
  simp only [isDigitByte, Bool.and_eq_false_iff, decide_eq_false_iff_not]
  omega

theorem utf8EncodeChar_of_not_isDigit {c : Char} (other : c.isDigit = false) :
    ∃ b more, String.utf8EncodeChar c = b :: more ∧ isDigitByte b = false := by
  rcases Char.utf8Size_eq c with one | two | three | four
  · refine ⟨_, _, String.utf8EncodeChar_eq_singleton one, ?_⟩
    have small : c.val.toNat ≤ 127 := by
      rw [Char.utf8Size_eq_one_iff, UInt32.le_iff_toNat_le] at one
      exact one
    have outside : ¬ (48 ≤ c.val.toNat ∧ c.val.toNat ≤ 57) := by
      rw [Bool.eq_false_iff, ne_eq, isDigit_iff] at other
      exact other
    simp only [isDigitByte, Bool.and_eq_false_iff, decide_eq_false_iff_not, UInt32.toNat_toUInt8]
    omega
  · exact ⟨_, _, String.utf8EncodeChar_eq_cons_cons two, isDigitByte_or_eq_false (by decide)⟩
  · exact ⟨_, _, String.utf8EncodeChar_eq_cons_cons_cons three, isDigitByte_or_eq_false (by decide)⟩
  · exact ⟨_, _, String.utf8EncodeChar_eq_cons_cons_cons_cons four,
      isDigitByte_or_eq_false (by decide)⟩

theorem utf8ByteSize_ofList_cons (c : Char) (text : List Char) :
    (String.ofList (c :: text)).utf8ByteSize = c.utf8Size + (String.ofList text).utf8ByteSize := by
  simp

theorem length_takeWhile_isDigitByte (text : List Char) :
    ((text.flatMap String.utf8EncodeChar).takeWhile isDigitByte).length =
      (String.ofList (text.takeWhile Char.isDigit)).utf8ByteSize := by
  induction text with
  | nil => rfl
  | cons c text ih =>
      cases digit : c.isDigit with
      | true =>
          obtain ⟨size, b, code, isCode⟩ := utf8EncodeChar_of_isDigit digit
          rw [List.flatMap_cons, code, List.singleton_append, List.takeWhile_cons_of_pos isCode,
            List.length_cons, ih, List.takeWhile_cons_of_pos digit, utf8ByteSize_ofList_cons, size,
            Nat.add_comm]
      | false =>
          obtain ⟨b, more, code, notCode⟩ := utf8EncodeChar_of_not_isDigit digit
          rw [List.flatMap_cons, code, List.cons_append,
            List.takeWhile_cons_of_neg (by simp [notCode]), List.takeWhile_cons_of_neg (by simp [digit])]
          rfl

/-- The bytes that are codes of digits make up the digits at the start of the text. -/
theorem digitBytes_eq (text : String) :
    digitBytes text = (String.ofList (text.toList.takeWhile Char.isDigit)).utf8ByteSize := by
  rw [digitBytes, bytes_eq_flatMap, length_takeWhile_isDigitByte]

variable {names : List String} {text : String} {c : Char} {rest : List Char}

theorem digitBytes_of_isDigit (first : text.toList = c :: rest) (digit : c.isDigit = true) :
    digitBytes text = (String.ofList (c :: rest.takeWhile Char.isDigit)).utf8ByteSize := by
  rw [digitBytes_eq, first, List.takeWhile_cons_of_pos digit]

/-- The run of digits at the start of a text is a slice. -/
theorem textTo_digitBytes (first : text.toList = c :: rest) (digit : c.isDigit = true) :
    textTo text (digitBytes text) = .ok (String.ofList (c :: rest.takeWhile Char.isDigit)) := by
  have whole : String.ofList (c :: rest.takeWhile Char.isDigit) ++
      String.ofList (rest.dropWhile Char.isDigit) = text := by
    rw [← String.ofList_append, List.cons_append, List.takeWhile_append_dropWhile, ← first,
      String.ofList_toList]
  have slice := textTo_append (String.ofList (c :: rest.takeWhile Char.isDigit))
    (String.ofList (rest.dropWhile Char.isDigit))
  rw [whole] at slice
  rw [digitBytes_of_isDigit first digit, slice]

theorem all_isDigit_run (rest : List Char) (digit : c.isDigit = true) :
    (c :: rest.takeWhile Char.isDigit).all Char.isDigit = true := by
  rw [List.all_cons, digit, List.all_takeWhile]
  rfl

theorem readNumber_digits (rest : List Char) (digit : c.isDigit = true) :
    readNumber (String.ofList (c :: rest.takeWhile Char.isDigit)) =
      .ok (Decimal.ofDigits (c :: rest.takeWhile Char.isDigit)) := by
  rw [readNumber, String.toList_ofList, if_pos ⟨by simp, all_isDigit_run rest digit⟩]

theorem digitBytes_eq_zero (first : text.toList = c :: rest) (other : c.isDigit = false) :
    digitBytes text = 0 := by
  rw [digitBytes_eq, first, List.takeWhile_cons_of_neg (by simp [other])]
  rfl

/-- Bytes and characters find the same name. -/
theorem map_toList_nameFrom? (names : List String) (text : String) :
    (nameFrom? names text).map String.toList =
      Piece.nameAt? (names.map String.toList) text.toList := by
  have same : (fun name : String => !name.isEmpty && text.startsWith name) =
      (fun name => !name.isEmpty && name.isPrefixOf text.toList) ∘ String.toList := by
    funext name
    rw [Bool.eq_iff_iff]
    simp
  rw [nameFrom?, Piece.nameAt?, List.find?_map, same]

/-- What is found at a position is the piece there. -/
theorem findAt_eq (names : List String) (first : text.toList = c :: rest) :
    ∃ found, findAt names c text = .ok found ∧
      found.token? = (Piece.next (names.map String.toList) c rest).token? ∧
      found.size =
        (String.ofList (Piece.next (names.map String.toList) c rest).chars).utf8ByteSize := by
  have name := map_toList_nameFrom? names text
  rw [first] at name
  unfold findAt Piece.next
  split
  · exact ⟨_, rfl, rfl, by simp [Piece.chars]⟩
  split
  · rename_i known found
    rw [found, Option.map_some] at name
    rw [← name]
    exact ⟨_, rfl, by simp [Piece.token?], by simp [Piece.chars]⟩
  rename_i found
  rw [found, Option.map_none] at name
  rw [← name]
  cases digit : c.isDigit with
  | true =>
      have some : digitBytes text ≠ 0 := by
        have := c.utf8Size_pos
        rw [digitBytes_of_isDigit first digit, utf8ByteSize_ofList_cons]
        omega
      rw [dif_pos some, textTo_digitBytes first digit]
      change ∃ found, (readNumber _ >>= _) = _ ∧ _
      rw [readNumber_digits rest digit]
      exact ⟨_, rfl, rfl, digitBytes_of_isDigit first digit⟩
  | false =>
      rw [dif_neg (by simp [digitBytes_eq_zero first digit])]
      refine ⟨_, rfl, ?_⟩
      simp only [Bool.false_eq_true, if_false]
      split
      · rename_i token symbol
        exact ⟨symbol, by simp [Piece.chars]⟩
      · rename_i ignored
        exact ⟨ignored, by simp [Piece.chars]⟩

theorem ofChars_cons (names : List String) (c : Char) (rest : List Char) :
    ofChars names (c :: rest) =
      (Piece.next (names.map String.toList) c rest).token?.toList ++ ofChars names
        ((c :: rest).drop (Piece.next (names.map String.toList) c rest).chars.length) := by
  simp only [ofChars, Piece.cut_cons, List.filterMap_cons]
  cases (Piece.next (names.map String.toList) c rest).token? <;> rfl

/-- From the end of a part of the text on, the scan finds the tokens of the rest. -/
theorem scanFrom_append (names : List String) (front : String) (behind : List Char) :
    scanFrom names (front ++ String.ofList behind) front.utf8ByteSize =
      .ok (ofChars names behind) := by
  induction behind using Piece.cut_induction (names.map String.toList) generalizing front with
  | nil =>
      rw [scanFrom, if_neg (by simp)]
      simp [ofChars, pure, Except.pure]
  | cons c rest ih =>
      have first : (String.ofList (c :: rest)).toList = c :: rest := String.toList_ofList
      obtain ⟨found, answer, token, size⟩ := findAt_eq names first
      obtain ⟨behind, split⟩ := Piece.chars_next_isPrefix (names.map String.toList) c rest
      have dropped : (c :: rest).drop
          (Piece.next (names.map String.toList) c rest).chars.length = behind := by
        rw [← split, List.drop_left]
      have inside : front.utf8ByteSize < (front ++ String.ofList (c :: rest)).utf8ByteSize := by
        have := c.utf8Size_pos
        rw [String.utf8ByteSize_append, utf8ByteSize_ofList_cons]
        omega
      -- the next position is the end of the piece
      have later := ih (front ++ String.ofList (Piece.next (names.map String.toList) c rest).chars)
      rw [dropped, String.append_assoc, ← String.ofList_append, split, String.utf8ByteSize_append,
        ← size] at later
      rw [scanFrom, if_pos inside, textFrom_append, ofChars_cons, dropped]
      simp only [bind, Except.bind, pure, Except.pure, String.toList_ofList, List.head?_cons, answer,
        later, token]

/-- The scan never fails, and it finds the tokens of the pieces. -/
theorem scan_eq (names : List String) (text : String) :
    scan names text = .ok (ofChars names text.toList) := by
  have whole := scanFrom_append names "" text.toList
  rw [String.empty_append, String.ofList_toList] at whole
  exact whole

end SeriesCalculator.Token
