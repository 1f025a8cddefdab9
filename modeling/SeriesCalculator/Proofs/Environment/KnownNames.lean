import SeriesCalculator.Proofs.Token.Segmentation
import SeriesCalculator.Reading

/-!
# The known names of an environment

A name is known if it is bound or if it is that of a function. The known names come in an order in
which longer ones are first, and that is all that cutting a text asks of the order: two
environments that know the same of the names that occur in a text cut it into the same tokens
(`tokenize_congr`).
-/

namespace SeriesCalculator

theorem Bindings.contains_iff_mem_names {b : Bindings} {name : String} :
    b.contains name = true ↔ name ∈ b.names := by
  simp only [contains, get?, names, List.lookup_isSome_iff, List.mem_map, beq_iff_eq]
  constructor
  · rintro ⟨entry, mem, same⟩
    exact ⟨entry, mem, same.symm⟩
  · rintro ⟨entry, mem, same⟩
    exact ⟨entry, mem, same.symm⟩

theorem FunctionTable.contains_iff_mem_names {t : FunctionTable} {name : String} :
    t.contains name = true ↔ name ∈ t.names := by
  rw [← isSome_rank?, rank?, names]
  simp [List.findIdx?_isSome]

namespace Environment

variable {env env' : Environment}

theorem mem_knownNames {name : String} :
    name ∈ env.knownNames ↔ name ∈ env.bindings.names ++ env.functions.names :=
  List.mem_mergeSort

theorem mem_knownNames_iff_contains {name : String} :
    name ∈ env.knownNames ↔
      env.bindings.contains name = true ∨ env.functions.contains name = true := by
  rw [mem_knownNames, List.mem_append, Bindings.contains_iff_mem_names,
    FunctionTable.contains_iff_mem_names]

theorem longerFirst_knownNames (env : Environment) : Piece.LongerFirst env.knownNames := by
  refine (List.pairwise_mergeSort ?_ ?_ _).imp (of_decide_eq_true ·)
  · intro a b c first second
    simp only [decide_eq_true_eq] at *
    omega
  · intro a b
    simp only [Bool.or_eq_true, decide_eq_true_eq]
    omega

/-- The tokens of a text depend only on which names that occur in it are known. -/
theorem tokenize_congr {text : List Char}
    (same : ∀ name : String, name ≠ "" → name.toList <:+: text →
      (name ∈ env.knownNames ↔ name ∈ env'.knownNames)) :
    env.tokenize text = env'.tokenize text := by
  simp only [tokenize, Token.ofChars]
  rw [Piece.cut_congr (longerFirst_knownNames env) (longerFirst_knownNames env') same]

/-- Any order of the known names will do in which longer ones are first. -/
theorem tokenize_eq_ofChars (names : List String) (sorted : Piece.LongerFirst names)
    (same : names.Perm (env.bindings.names ++ env.functions.names)) (text : List Char) :
    env.tokenize text = Token.ofChars names text := by
  have known (name : String) : name ∈ env.knownNames ↔ name ∈ names := by
    rw [mem_knownNames, same.mem_iff]
  simp only [tokenize, Token.ofChars]
  rw [Piece.cut_congr (longerFirst_knownNames env) sorted fun name _ _ => known name]

/-- The initial names in such an order. -/
theorem tokenize_initial (text : List Char) :
    (initial .default).tokenize text = Token.ofChars
      ["cosec", "sin", "cos", "tan", "sec", "csc", "cot", "abs", "exp", "pi", "ln", "e"] text :=
  tokenize_eq_ofChars _ (by decide +kernel) (by decide +kernel) text

end Environment

end SeriesCalculator
