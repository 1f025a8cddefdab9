import SeriesCalculator.Proofs.Decimal.Text
import SeriesCalculator.Proofs.Environment.KnownNames
import SeriesCalculator.Proofs.Grammar.Arrangement
import SeriesCalculator.Proofs.Token.Product

/-!
# A printed tree is read back

The text of a tree is cut into the tokens of its printed form. The text of every part ends before
a sign or at the end of the whole text, so that no part is cut together with its neighbour. Between
these tokens no product is implied: a value is never followed by a value or by an opening
parenthesis. And they are an operand, since every operator is printed with its own parentheses
and every argument as well; its only parse is the tree.
-/

namespace SeriesCalculator

namespace Expr

/-- The tokens of the printed form. -/
def tokens : Expr → List Token
  | number x => [.number x]
  | «variable» name => [.name name]
  | call f argument => .name f :: .opening :: argument.tokens ++ [.closing]
  | binary op left right =>
    .opening :: left.tokens ++ .operator op :: right.tokens ++ [.closing]

/-- A tree that can be read in an environment: its numbers are natural, its variables are bound
and are not functions, and its functions are known. -/
def ReadableIn (env : Environment) : Expr → Prop
  | number x => Binary.IsNatural x
  | «variable» name => name ∈ env.bindings.names ∧ env.functions.contains name = false
  | call f argument => env.functions.contains f = true ∧ argument.ReadableIn env
  | binary _ left right => left.ReadableIn env ∧ right.ReadableIn env

end Expr

namespace Environment

variable {env : Environment}

/-- Every name of the environment, be it a variable or a function, is plain. -/
def PlainNames (env : Environment) : Prop :=
  ∀ name ∈ env.bindings.names ++ env.functions.names, Token.PlainName name

theorem tokenize_name (plain : env.PlainNames) {name : String}
    (mem : name ∈ env.bindings.names ++ env.functions.names) {rest : List Char}
    (delimited : Token.Delimited rest) :
    env.tokenize (name.toList ++ rest) = .name name :: env.tokenize rest := by
  have cut := Piece.cut_name (longerFirst_knownNames env)
    (fun name mem => plain name (mem_knownNames.mp mem)) (mem_knownNames.mpr mem) delimited
  rw [tokenize, Token.ofChars, cut]
  simp [Piece.token?, tokenize, Token.ofChars]

theorem tokenize_number (plain : env.PlainNames) {x : Float} (natural : Binary.IsNatural x)
    {rest : List Char} (delimited : Token.Delimited rest) :
    env.tokenize ((Decimal.text x).toList ++ rest) = .number x :: env.tokenize rest := by
  obtain ⟨ne, digits, read⟩ := Decimal.digits_text natural
  have cut := Piece.cut_digits (fun name mem => plain name (mem_knownNames.mp mem)) ne digits
    delimited
  rw [tokenize, Token.ofChars, cut]
  simp [Piece.token?, tokenize, Token.ofChars, read]

theorem tokenize_symbol (plain : env.PlainNames) {c : Char} {token : Token}
    (sign : c ∈ Token.symbols) (is : Token.ofSymbol? c = some token) (rest : List Char) :
    env.tokenize (c :: rest) = token :: env.tokenize rest := by
  have cut := Piece.cut_symbol (fun name mem => plain name (mem_knownNames.mp mem)) sign is rest
  rw [tokenize, Token.ofChars, cut]
  simp [Piece.token?, tokenize, Token.ofChars]

theorem tokenize_operator (plain : env.PlainNames) (op : Operator) (rest : List Char) :
    env.tokenize (op.symbol :: rest) = .operator op :: env.tokenize rest :=
  tokenize_symbol plain (Token.symbol_mem_symbols op) (Token.ofSymbol?_symbol_operator op) rest

theorem tokenize_opening (plain : env.PlainNames) (rest : List Char) :
    env.tokenize ('(' :: rest) = .opening :: env.tokenize rest :=
  tokenize_symbol plain (by decide) rfl rest

theorem tokenize_closing (plain : env.PlainNames) (rest : List Char) :
    env.tokenize (')' :: rest) = .closing :: env.tokenize rest :=
  tokenize_symbol plain (by decide) rfl rest

/-- The text of a tree is cut into its tokens, and what comes behind it is cut as if it stood
alone. -/
theorem tokenize_chars (plain : env.PlainNames) {e : Expr} (readable : e.ReadableIn env)
    {rest : List Char} (delimited : Token.Delimited rest) :
    env.tokenize (e.chars ++ rest) = e.tokens ++ env.tokenize rest := by
  induction e generalizing rest with
  | number x => exact tokenize_number plain readable delimited
  | «variable» name =>
      exact tokenize_name plain (List.mem_append_left _ readable.1) delimited
  | call f argument ih =>
      have mem : f ∈ env.bindings.names ++ env.functions.names :=
        List.mem_append_right _ (FunctionTable.contains_iff_mem_names.mp readable.1)
      have closed : Token.Delimited (')' :: rest) := Token.delimited_cons (by decide) rest
      simp only [Expr.chars, Expr.tokens, List.append_assoc, List.cons_append, List.nil_append]
      rw [tokenize_name plain mem (Token.delimited_cons (by decide) _), tokenize_opening plain,
        ih readable.2 closed, tokenize_closing plain]
  | binary op left right ihLeft ihRight =>
      have signed : Token.Delimited (op.symbol :: (right.chars ++ ')' :: rest)) :=
        Token.delimited_cons (Token.symbol_mem_symbols op) _
      have closed : Token.Delimited (')' :: rest) := Token.delimited_cons (by decide) rest
      simp only [Expr.chars, Expr.tokens, List.append_assoc, List.cons_append, List.nil_append]
      rw [tokenize_opening plain, ihLeft readable.1 signed, tokenize_operator plain,
        ihRight readable.2 closed, tokenize_closing plain]

end Environment

namespace Expr

variable {env : Environment}

/-- If no value begins behind the tokens of a tree, then no product is implied in them. -/
theorem foldr_consFactor_tokens {e : Expr} (readable : e.ReadableIn env) {rest : List Token}
    (ahead : Token.NoFactorAhead env.functions.contains rest) :
    e.tokens.foldr (Token.consFactor env.functions.contains) rest = e.tokens ++ rest := by
  induction e generalizing rest with
  | number x => exact Token.consFactor_of_ahead ahead
  | «variable» name => exact Token.consFactor_of_ahead ahead
  | call f argument ih =>
      have function : (Token.name f).endsFactor env.functions.contains = false := by
        simp [Token.endsFactor, Token.isVariable, readable.1]
      simp only [tokens, List.cons_append, List.foldr_cons, List.foldr_append, List.foldr_nil]
      rw [Token.consFactor_of_ahead ahead, ih readable.2 Token.noFactorAhead_closing,
        Token.consFactor_opening, Token.consFactor_of_not_ends function]
      simp
  | binary op left right ihLeft ihRight =>
      simp only [tokens, List.cons_append, List.foldr_cons, List.foldr_append, List.foldr_nil]
      rw [Token.consFactor_of_ahead ahead, ihRight readable.2 Token.noFactorAhead_closing,
        Token.consFactor_operator, ihLeft readable.1 (Token.noFactorAhead_operator op),
        Token.consFactor_opening]
      simp

theorem parseOperand_tokens {e : Expr} (readable : e.ReadableIn env) :
    Grammar.ParseOperand env.functions.rank? e.tokens e := by
  induction e with
  | number x => exact .number x
  | «variable» name =>
      have free := env.functions.isSome_rank? name
      rw [readable.2] at free
      exact .variable (Option.not_isSome_iff_eq_none.mp (by simp [free]))
  | call f argument ih =>
      have known := env.functions.isSome_rank? f
      rw [readable.1] at known
      obtain ⟨rank, ranked⟩ := Option.isSome_iff_exists.mp known
      refine .call ranked ?_ (.group (.operand (ih readable.2)))
      intro inner _ head
      cases head
  | binary op left right ihLeft ihRight =>
      have parse : Grammar.Parse env.functions.rank? 0
          (left.tokens ++ .operator op :: right.tokens) (binary op left right) :=
        .binary (Nat.zero_le _) (.operand (ihLeft readable.1)) (.operand (ihRight readable.2))
      simpa [tokens] using Grammar.ParseOperand.group parse

end Expr

namespace Environment

/-- Reading the text of a tree gives back the tree, and its own order as the reverse Polish
one. -/
theorem readTokens_text {env : Environment} (plain : env.PlainNames) {e : Expr}
    (readable : e.ReadableIn env) :
    env.readTokens (env.tokenize e.text.toList) =
      .ok { tokens := e.tokens, products := e.tokens, polish := e.polish, tree := e } := by
  have cut : env.tokenize e.text.toList = e.tokens := by
    have nothing : Token.Delimited [] := fun c head => by cases head
    have alone : env.tokenize [] = [] := by simp [tokenize, Token.ofChars]
    have all := tokenize_chars plain readable nothing
    rw [alone] at all
    simpa using all
  have products : env.withProducts e.tokens = e.tokens := by
    have nothing : Token.NoFactorAhead env.functions.contains [] := fun c head => by cases head
    simpa [withProducts, Token.withProducts] using e.foldr_consFactor_tokens readable nothing
  have parse : Grammar.Parse env.functions.rank? 0 e.tokens e :=
    .operand (Expr.parseOperand_tokens readable)
  have arranged : env.reversePolish e.tokens = .ok e.polish := parse.reversePolish_eq
  have built : env.treeOf e.polish = .ok e := treeOf_polish_of_parse parse
  rw [cut, readTokens, products, arranged]
  change (env.treeOf e.polish >>= _) = _
  rw [built]
  rfl

/-- At the start `cosec(e)` is a call, although `cos` and `e` are names, too. The number is
written with the digits of the shortest decimal number, which is not the number itself. -/
theorem readTokens_text_initial :
    let env := initial .default
    let e : Expr :=
      .binary .power (.call "cosec" (.variable "e")) (.number (.ofBits 0x44B52D02C7E14AF6))
    e.text = "(cosec(e)^100000000000000000000000)" ∧
    env.readTokens (env.tokenize e.text.toList) =
      .ok { tokens := e.tokens, products := e.tokens, polish := e.polish, tree := e } := by
  intro env e
  have plain : env.PlainNames := by
    unfold PlainNames
    decide +kernel
  have natural : Binary.IsNatural (.ofBits 0x44B52D02C7E14AF6) :=
    ⟨by decide +kernel, by decide +kernel, 99999999999999991611392, by decide +kernel⟩
  refine ⟨?_, readTokens_text plain ?_⟩
  · apply String.toList_injective
    rw [Expr.toList_text]
    decide +kernel
  · exact ⟨⟨by decide +kernel, by decide +kernel, by decide +kernel⟩, natural⟩

end Environment

end SeriesCalculator
