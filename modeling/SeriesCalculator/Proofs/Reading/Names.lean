import SeriesCalculator.Proofs.Environment.KnownNames
import SeriesCalculator.Proofs.Except
import SeriesCalculator.Proofs.Grammar.Arrangement
import SeriesCalculator.Proofs.Token.Product

/-!
# The names that reading asks for

Reading asks an environment which names are known, which of them are functions, and which rank a
function has. It asks this of no name that does not occur in the text. So environments that give
the same answers for the names of a text read it alike (`read_congr`), and the names in the tree
all come from the text (`isInfix_of_mentions`).
-/

namespace SeriesCalculator

namespace Token

/-- Tokens are arranged according to the ranks of their names. -/
theorem reversePolish_congr {rank? rank?' : String → Option Nat} {tokens : List Token}
    (same : ∀ name, .name name ∈ tokens → rank? name = rank?' name) :
    reversePolish rank? tokens = reversePolish rank?' tokens := by
  have step (t : Token) (mem : t ∈ tokens) (s : Arrangement) :
      Arrangement.step rank? s t = Arrangement.step rank?' s t := by
    cases t with
    | name name => simp only [Arrangement.step, same name mem]
    | number value => rfl
    | operator op => rfl
    | opening => rfl
    | closing => rfl
  simp only [reversePolish, foldlM_congr step]

end Token

namespace Grammar

variable {rank? : String → Option Nat}

mutual

theorem ParseOperand.mem_of_mem_polish {tokens : List Token} {e : Expr} {t : Token} :
    ParseOperand rank? tokens e → t ∈ e.polish → t ∈ tokens
  | .number _, mem => mem
  | .variable _, mem => mem
  | .group inner, mem => by
      have within := inner.mem_of_mem_polish mem
      simp [within]
  | .call _ _ argument, mem => by
      rcases List.mem_append.mp mem with inArgument | isFunction
      · exact List.mem_cons_of_mem _ (argument.mem_of_mem_polish inArgument)
      · simp [List.mem_singleton.mp isFunction]

/-- Flattening a parse brings nothing new. -/
theorem Parse.mem_of_mem_polish {p : Nat} {tokens : List Token} {e : Expr} {t : Token} :
    Parse rank? p tokens e → t ∈ e.polish → t ∈ tokens
  | .operand h, mem => h.mem_of_mem_polish mem
  | .binary _ hl hr, mem => by
      rw [Expr.polish, List.mem_append, List.mem_append] at mem
      rcases mem with (inLeft | inRight) | isOperator
      · simp [hl.mem_of_mem_polish inLeft]
      · simp [hr.mem_of_mem_polish inRight]
      · simp [List.mem_singleton.mp isOperator]

end

end Grammar

namespace Expr

theorem ofReversePolish_congr {isFunction isFunction' : String → Bool} {tokens : List Token}
    (same : ∀ name, .name name ∈ tokens → isFunction name = isFunction' name) :
    ofReversePolish isFunction tokens = ofReversePolish isFunction' tokens := by
  have step (t : Token) (mem : t ∈ tokens) (stack : List Expr) :
      build isFunction stack t = build isFunction' stack t := by
    cases t with
    | name name => simp only [build, same name mem]
    | number value => rfl
    | operator op => rfl
    | opening => rfl
    | closing => rfl
  simp only [ofReversePolish, foldlM_congr step]

end Expr

namespace Environment

variable {env env' : Environment} {tokens : List Token}

/-- The parse of the tokens with their products is what is read. -/
theorem readTokens_eq_ok_of_parse {e : Expr}
    (parse : Grammar.Parse env.functions.rank? 0 (env.withProducts tokens) e) :
    env.readTokens tokens =
      .ok { tokens, products := env.withProducts tokens, polish := e.polish, tree := e } := by
  have arranged : env.reversePolish (env.withProducts tokens) = .ok e.polish :=
    parse.reversePolish_eq
  have built : env.treeOf e.polish = .ok e := treeOf_polish_of_parse parse
  rw [readTokens, arranged]
  change (env.treeOf e.polish >>= _) = _
  rw [built]
  rfl

/-- Reading fails only where the arrangement does: what is arranged has a parse. -/
theorem readTokens_eq_error_iff {fault : ExpressionFault} :
    env.readTokens tokens = .error fault ↔
      env.reversePolish (env.withProducts tokens) = .error fault := by
  cases arranged : env.reversePolish (env.withProducts tokens) with
  | error other =>
      rw [readTokens, arranged]
      constructor <;> intro h <;> cases h <;> rfl
  | ok polish =>
      obtain ⟨e, parse⟩ := (Grammar.expression_of_reversePolish arranged).exists_parse
      rw [readTokens_eq_ok_of_parse parse]
      constructor <;> intro h <;> cases h

theorem parse_of_readTokens {reading : Reading} (read : env.readTokens tokens = .ok reading) :
    Grammar.Parse env.functions.rank? 0 (env.withProducts tokens) reading.tree := by
  cases arranged : env.reversePolish (env.withProducts tokens) with
  | error fault =>
      rw [readTokens_eq_error_iff.mpr arranged] at read
      cases read
  | ok polish =>
      obtain ⟨e, parse⟩ := (Grammar.expression_of_reversePolish arranged).exists_parse
      rw [readTokens_eq_ok_of_parse parse] at read
      cases read
      exact parse

theorem mem_of_mentions {reading : Reading} (read : env.readTokens tokens = .ok reading)
    {name : String} (mentioned : reading.tree.Mentions name) : .name name ∈ tokens := by
  have parse := parse_of_readTokens read
  have inProducts := parse.mem_of_mem_polish (Expr.name_mem_polish_iff.mpr mentioned)
  rcases Token.mem_of_mem_withProducts inProducts with among | product
  · exact among
  · cases product

/-- Tokens are read according to the ranks of their names. -/
theorem readTokens_congr
    (same : ∀ name, .name name ∈ tokens → env.functions.rank? name = env'.functions.rank? name) :
    env.readTokens tokens = env'.readTokens tokens := by
  have functions (name : String) (mem : .name name ∈ tokens) :
      env.functions.contains name = env'.functions.contains name := by
    rw [← FunctionTable.isSome_rank?, ← FunctionTable.isSome_rank?, same name mem]
  have products : env.withProducts tokens = env'.withProducts tokens :=
    Token.withProducts_congr functions
  have among (name : String) (mem : .name name ∈ env.withProducts tokens) : .name name ∈ tokens :=
    (Token.mem_of_mem_withProducts mem).resolve_right nofun
  have arranged :
      env.reversePolish (env.withProducts tokens) = env'.reversePolish (env.withProducts tokens) :=
    Token.reversePolish_congr fun name mem => same name (among name mem)
  cases result : env.reversePolish (env.withProducts tokens) with
  | error fault =>
      have result' : env'.reversePolish (env'.withProducts tokens) = .error fault := by
        rw [← products, ← arranged, result]
      rw [readTokens_eq_error_iff.mpr result, readTokens_eq_error_iff.mpr result']
  | ok polish =>
      obtain ⟨e, parse⟩ := (Grammar.expression_of_reversePolish result).exists_parse
      have flat : env.reversePolish (env.withProducts tokens) = .ok e.polish :=
        parse.reversePolish_eq
      have tree : env.treeOf e.polish = env'.treeOf e.polish :=
        Expr.ofReversePolish_congr fun name mem =>
          functions name (among name (parse.mem_of_mem_polish mem))
      simp only [readTokens, ← products, ← arranged, flat]
      change (env.treeOf e.polish >>= _) = (env'.treeOf e.polish >>= _)
      rw [tree]

theorem trim_isInfix (text : List Char) : Text.trim text <:+: text := by
  have front := List.dropWhile_suffix (l := text) Text.isBlank
  have back := List.dropWhile_suffix (l := (text.dropWhile Text.isBlank).reverse) Text.isBlank
  rw [← List.reverse_prefix, List.reverse_reverse] at back
  exact back.isInfix.trans front.isInfix

/-- Environments read a text alike if they know the same of the names in it, with the same
ranks. -/
theorem read_congr {text : String}
    (known : ∀ name : String, name ≠ "" → name.toList <:+: text.toList →
      (name ∈ env.knownNames ↔ name ∈ env'.knownNames))
    (ranks : ∀ name : String, name.toList <:+: text.toList →
      env.functions.rank? name = env'.functions.rank? name) :
    env.read text = env'.read text := by
  have inner := trim_isInfix text.toList
  have tokens : env.tokenize (Text.trim text.toList) = env'.tokenize (Text.trim text.toList) :=
    tokenize_congr fun name ne within => known name ne (within.trans inner)
  have read : env.readTokens (env.tokenize (Text.trim text.toList)) =
      env'.readTokens (env.tokenize (Text.trim text.toList)) :=
    readTokens_congr fun name mem => ranks name ((Token.isInfix_of_mem_ofChars mem).trans inner)
  simp only [Environment.read, ← tokens, read]

/-- With the same functions, it is enough that the same names of the text are bound. -/
theorem read_congr_bindings {text : String} (functions : env.functions = env'.functions)
    (bindings : ∀ name : String, name.toList <:+: text.toList →
      env.bindings.contains name = env'.bindings.contains name) :
    env.read text = env'.read text := by
  apply read_congr
  · intro name _ within
    rw [mem_knownNames_iff_contains, mem_knownNames_iff_contains, functions, bindings name within]
  · intro name _
    rw [functions]

/-- The names of the tree that is read stand in the text. -/
theorem isInfix_of_mentions {text : String} {reading : Reading} (read : env.read text = .ok reading)
    {name : String} (mentioned : reading.tree.Mentions name) : name.toList <:+: text.toList := by
  rw [Environment.read] at read
  split at read
  · cases read
  · have mem := mem_of_mentions read mentioned
    exact (Token.isInfix_of_mem_ofChars mem).trans (trim_isInfix text.toList)

end Environment

end SeriesCalculator
