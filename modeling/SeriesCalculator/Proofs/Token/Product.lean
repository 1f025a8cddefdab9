import SeriesCalculator.Token.Product

/-!
# Where products are implied

A product sign is put behind a token if the token ends a value and a value begins behind it. So
between tokens and what follows them none is put in if no value begins there
(`foldr_consFactor_eq`). Nothing but product signs is put in, and which ones depends only on which
of the names among the tokens are functions (`withProducts_congr`).
-/

namespace SeriesCalculator.Token

section

variable {isFunction : String → Bool} {t : Token} {rest tokens : List Token}

/-- No value begins at the start of these tokens. -/
def NoFactorAhead (isFunction : String → Bool) (tokens : List Token) : Prop :=
  ∀ next, tokens.head? = some next → next.startsFactor isFunction = false

theorem noFactorAhead_cons_iff :
    NoFactorAhead isFunction (t :: rest) ↔ t.startsFactor isFunction = false := by
  constructor
  · intro ahead
    exact ahead t rfl
  · rintro noFactor _ ⟨⟩
    exact noFactor

theorem consFactor_of_ahead (ahead : NoFactorAhead isFunction rest) :
    consFactor isFunction t rest = t :: rest := by
  cases rest with
  | nil => rfl
  | cons next rest => simp [consFactor, ahead next rfl]

theorem consFactor_of_not_ends (goesOn : t.endsFactor isFunction = false) :
    consFactor isFunction t rest = t :: rest := by
  cases rest with
  | nil => rfl
  | cons next rest => simp [consFactor, goesOn]

theorem consFactor_of_factors (ends : t.endsFactor isFunction = true)
    (ahead : ¬ NoFactorAhead isFunction rest) :
    consFactor isFunction t rest = t :: .operator .multiply :: rest := by
  cases rest with
  | nil => exact (ahead fun next head => by cases head).elim
  | cons next rest =>
      have starts : next.startsFactor isFunction = true := by
        simpa [noFactorAhead_cons_iff] using ahead
      simp [consFactor, ends, starts]

@[simp] theorem consFactor_opening : consFactor isFunction .opening rest = .opening :: rest :=
  consFactor_of_not_ends rfl

@[simp] theorem consFactor_operator (op : Operator) :
    consFactor isFunction (.operator op) rest = .operator op :: rest :=
  consFactor_of_not_ends rfl

theorem noFactorAhead_closing : NoFactorAhead isFunction (.closing :: rest) :=
  noFactorAhead_cons_iff.mpr rfl

theorem noFactorAhead_operator (op : Operator) :
    NoFactorAhead isFunction (.operator op :: rest) :=
  noFactorAhead_cons_iff.mpr rfl

/-- A token is put in front, with or without a product sign behind it. -/
theorem consFactor_eq (isFunction : String → Bool) (t : Token) (rest : List Token) :
    consFactor isFunction t rest = t :: rest ∨
      consFactor isFunction t rest = t :: .operator .multiply :: rest := by
  unfold consFactor
  split
  · exact .inl rfl
  split
  · exact .inr rfl
  · exact .inl rfl

theorem noFactorAhead_consFactor_iff :
    NoFactorAhead isFunction (consFactor isFunction t rest) ↔
      t.startsFactor isFunction = false := by
  rcases consFactor_eq isFunction t rest with plain | product
  · rw [plain, noFactorAhead_cons_iff]
  · rw [product, noFactorAhead_cons_iff]

theorem consFactor_append (ahead : NoFactorAhead isFunction rest) :
    consFactor isFunction t (tokens ++ rest) = consFactor isFunction t tokens ++ rest := by
  cases tokens with
  | nil => exact consFactor_of_ahead ahead
  | cons next tokens =>
      simp only [List.cons_append, consFactor]
      split <;> rfl

/-- In front of tokens at which no value begins, the products are those of the front alone. -/
theorem foldr_consFactor_eq (ahead : NoFactorAhead isFunction rest) :
    tokens.foldr (consFactor isFunction) rest = withProducts isFunction tokens ++ rest := by
  induction tokens with
  | nil => rfl
  | cons t tokens ih =>
      rw [List.foldr_cons, ih]
      exact consFactor_append ahead

theorem mem_of_mem_withProducts (mem : t ∈ withProducts isFunction tokens) :
    t ∈ tokens ∨ t = .operator .multiply := by
  induction tokens with
  | nil => cases mem
  | cons first tokens ih =>
      change t ∈ consFactor isFunction first (withProducts isFunction tokens) at mem
      have split : t = first ∨ t = .operator .multiply ∨ t ∈ withProducts isFunction tokens := by
        rcases consFactor_eq isFunction first (withProducts isFunction tokens) with plain | product
        · rw [plain] at mem
          exact (List.mem_cons.mp mem).imp_right .inr
        · rw [product] at mem
          exact (List.mem_cons.mp mem).imp_right List.mem_cons.mp
      rcases split with rfl | isProduct | later
      · exact .inl List.mem_cons_self
      · exact .inr isProduct
      · exact (ih later).imp_left (List.mem_cons_of_mem _)

end

section

variable {isFunction isFunction' : String → Bool} {tokens : List Token} {t : Token}

theorem isVariable_congr (same : ∀ name, t = .name name → isFunction name = isFunction' name) :
    t.isVariable isFunction = t.isVariable isFunction' := by
  cases t with
  | name name => simp only [isVariable, same name rfl]
  | number value => rfl
  | operator op => rfl
  | opening => rfl
  | closing => rfl

theorem consFactor_congr
    (same : ∀ name, .name name ∈ t :: tokens → isFunction name = isFunction' name) :
    consFactor isFunction t tokens = consFactor isFunction' t tokens := by
  cases tokens with
  | nil => rfl
  | cons next rest =>
      have left : t.isVariable isFunction = t.isVariable isFunction' :=
        isVariable_congr fun name is => same name (by simp [is])
      have right : next.isVariable isFunction = next.isVariable isFunction' :=
        isVariable_congr fun name is => same name (by simp [is])
      cases t <;> cases next <;> simp [consFactor, endsFactor, startsFactor, left, right]

/-- Products are implied according to which names of the tokens are functions. -/
theorem withProducts_congr
    (same : ∀ name, .name name ∈ tokens → isFunction name = isFunction' name) :
    withProducts isFunction tokens = withProducts isFunction' tokens := by
  induction tokens with
  | nil => rfl
  | cons first tokens ih =>
      change consFactor isFunction first (withProducts isFunction tokens) =
        consFactor isFunction' first (withProducts isFunction' tokens)
      rw [← ih fun name mem => same name (List.mem_cons_of_mem _ mem)]
      apply consFactor_congr
      intro name mem
      rcases List.mem_cons.mp mem with here | later
      · exact same name (here ▸ List.mem_cons_self)
      · rcases mem_of_mem_withProducts later with among | product
        · exact same name (List.mem_cons_of_mem _ among)
        · cases product

end

end SeriesCalculator.Token
