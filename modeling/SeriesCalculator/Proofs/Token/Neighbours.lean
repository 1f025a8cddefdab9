import SeriesCalculator.Proofs.Except
import SeriesCalculator.Proofs.Token.Product
import SeriesCalculator.Reading
import Mathlib.Data.List.Chain
import Mathlib.Data.List.FinRange

/-!
# Products between neighbours

Whether a product is implied between two tokens is a matter of these two alone (`Multiplied`). So the
tokens with their products are the tokens with a sign between all such neighbours, and no other sign
(`withProducts_eq_flatMap`), and it makes no difference that a pass from the left compares a token with
the last one of its own output (`foldl_appendFactor_eq`).

Nothing changes exactly if no neighbours are multiplied (`withProducts_eq_self_iff`). This is so after
the products have been put in, and it is so for tokens that can be brought into reverse Polish order:
there a value never follows a value directly.
-/

namespace SeriesCalculator.Token

/-- A product is implied between two neighbours: a number, a variable or the end of a group, and behind
it a variable or the start of a group. -/
def Multiplied (isFunction : String → Bool) (left right : Token) : Prop :=
  ((∃ value, left = .number value) ∨ (∃ n, left = .name n ∧ isFunction n = false) ∨
    left = .closing) ∧
  ((∃ n, right = .name n ∧ isFunction n = false) ∨ right = .opening)

variable {isFunction : String → Bool} {left right t : Token} {tokens rest output : List Token}

theorem multiplied_iff :
    Multiplied isFunction left right ↔
      left.endsFactor isFunction = true ∧ right.startsFactor isFunction = true := by
  have ends : left.endsFactor isFunction = true ↔ (∃ value, left = .number value) ∨
      (∃ n, left = .name n ∧ isFunction n = false) ∨ left = .closing := by
    cases left <;> simp [endsFactor, isVariable]
  have starts : right.startsFactor isFunction = true ↔
      (∃ n, right = .name n ∧ isFunction n = false) ∨ right = .opening := by
    cases right <;> simp [startsFactor, isVariable]
  rw [ends, starts, Multiplied]

instance (isFunction : String → Bool) (left right : Token) :
    Decidable (Multiplied isFunction left right) :=
  decidable_of_iff _ multiplied_iff.symm

theorem not_multiplied_operator (op : Operator) :
    ¬ Multiplied isFunction left (.operator op) := by
  rintro ⟨-, ⟨n, isName, -⟩ | isGroup⟩
  · cases isName
  · cases isGroup

theorem not_operator_multiplied (op : Operator) :
    ¬ Multiplied isFunction (.operator op) right := by
  rintro ⟨⟨value, isNumber⟩ | ⟨n, isName, -⟩ | isGroup, -⟩
  · cases isNumber
  · cases isName
  · cases isGroup

/-- What stands between two neighbours, of which either may be missing at an end of the tokens. -/
def signBetween (isFunction : String → Bool) : Option Token → Option Token → List Token
  | some left, some right => if Multiplied isFunction left right then [.operator .multiply] else []
  | _, _ => []

@[simp] theorem signBetween_none (left? : Option Token) :
    signBetween isFunction left? none = [] := by
  cases left? <;> rfl

@[simp] theorem withProducts_nil : withProducts isFunction [] = [] := rfl

@[simp] theorem head?_withProducts : (withProducts isFunction tokens).head? = tokens.head? := by
  cases tokens with
  | nil => rfl
  | cons t rest =>
      change (consFactor isFunction t (withProducts isFunction rest)).head? = some t
      rcases consFactor_eq isFunction t (withProducts isFunction rest) with plain | product
      · rw [plain, List.head?_cons]
      · rw [product, List.head?_cons]

/-- The sign behind the first token depends on the second one. -/
theorem withProducts_cons (isFunction : String → Bool) (t : Token) (rest : List Token) :
    withProducts isFunction (t :: rest) =
      t :: (signBetween isFunction (some t) rest.head? ++ withProducts isFunction rest) := by
  change consFactor isFunction t (withProducts isFunction rest) = _
  cases rest with
  | nil => rfl
  | cons next rest =>
      have head : (withProducts isFunction (next :: rest)).head? = some next := head?_withProducts
      rw [List.head?_cons, signBetween]
      split
      · rename_i multiplied
        obtain ⟨ends, starts⟩ := multiplied_iff.mp multiplied
        refine consFactor_of_factors ends fun ahead => ?_
        rw [ahead next head] at starts
        cases starts
      · rename_i apart
        cases ends : t.endsFactor isFunction with
        | false => exact consFactor_of_not_ends ends
        | true =>
            refine consFactor_of_ahead fun other same => ?_
            cases head.symm.trans same
            exact Bool.eq_false_iff.mpr fun starts => apart (multiplied_iff.mpr ⟨ends, starts⟩)

/-- The tokens stay in their places, and behind each of them is what belongs between it and the next
one. -/
theorem withProducts_eq_flatMap (isFunction : String → Bool) (tokens : List Token) :
    withProducts isFunction tokens = (List.finRange tokens.length).flatMap fun i =>
      tokens[i] :: signBetween isFunction (some tokens[i]) tokens[i.val + 1]? := by
  induction tokens with
  | nil => rfl
  | cons t rest ih =>
      have places : List.finRange (t :: rest).length =
          0 :: (List.finRange rest.length).map Fin.succ := List.finRange_succ
      rw [withProducts_cons, ih, places, List.flatMap_cons, List.flatMap_map, List.head?_eq_getElem?]
      rfl

/-- Puts a token behind what has been put out. A sign comes first if one is implied between it and the
last token of the output. -/
def appendFactor (isFunction : String → Bool) (output : List Token) (t : Token) : List Token :=
  output ++ signBetween isFunction output.getLast? (some t) ++ [t]

theorem foldl_appendFactor_append (front : List Token) (last : Token) (tokens : List Token) :
    tokens.foldl (appendFactor isFunction) (front ++ [last]) =
      front ++ withProducts isFunction (last :: tokens) := by
  induction tokens generalizing front last with
  | nil => rfl
  | cons t tokens ih =>
      -- the sign before the token belongs to the output that it is compared with next
      have next := ih (front ++ last :: signBetween isFunction (some last) (some t)) t
      rw [List.foldl_cons, appendFactor, List.getLast?_concat, withProducts_cons, List.head?_cons]
      simpa using next

/-- The pass from the left puts the same signs in. -/
theorem foldl_appendFactor_eq (isFunction : String → Bool) (tokens : List Token) :
    tokens.foldl (appendFactor isFunction) [] = withProducts isFunction tokens := by
  cases tokens with
  | nil => rfl
  | cons t tokens => exact foldl_appendFactor_append [] t tokens

/-- No product is implied between any neighbours. -/
abbrev Apart (isFunction : String → Bool) (tokens : List Token) : Prop :=
  tokens.IsChain fun left right => ¬ Multiplied isFunction left right

theorem apart_withProducts (isFunction : String → Bool) (tokens : List Token) :
    Apart isFunction (withProducts isFunction tokens) := by
  induction tokens with
  | nil => exact .nil
  | cons t rest ih =>
      rw [withProducts_cons]
      cases rest with
      | nil => exact .singleton t
      | cons next rest =>
          rw [List.head?_cons, signBetween]
          split
          · refine List.isChain_cons.mpr ⟨?_, List.isChain_cons.mpr ⟨?_, ih⟩⟩
            · rintro _ ⟨⟩
              exact not_multiplied_operator .multiply
            · exact fun _ _ => not_operator_multiplied .multiply
          · rename_i apart
            refine List.isChain_cons.mpr ⟨?_, ih⟩
            intro other head
            rw [List.nil_append, head?_withProducts] at head
            cases head
            exact apart

theorem withProducts_of_apart (apart : Apart isFunction tokens) :
    withProducts isFunction tokens = tokens := by
  induction tokens with
  | nil => rfl
  | cons t rest ih =>
      obtain ⟨first, later⟩ := List.isChain_cons.mp apart
      rw [withProducts_cons, ih later]
      cases rest with
      | nil => rfl
      | cons next rest => rw [List.head?_cons, signBetween, if_neg (first next rfl), List.nil_append]

theorem withProducts_eq_self_iff :
    withProducts isFunction tokens = tokens ↔ Apart isFunction tokens := by
  constructor
  · intro same
    rw [← same]
    exact apart_withProducts isFunction tokens
  · exact withProducts_of_apart

section Arranged

variable {rank? : String → Option Nat} (same : ∀ name, (rank? name).isSome = isFunction name)

include same

/-- After a value no value begins, and what ends a value is noted as such. -/
theorem Arrangement.factors_of_step {s next : Arrangement} (step : step rank? s t = .ok next) :
    (s.afterValue = true → t.startsFactor isFunction = false) ∧
      (t.endsFactor isFunction = true → next.afterValue = true) := by
  cases t with
  | number value =>
      simp only [Arrangement.step] at step
      split at step
      · cases step
      · cases step
        exact ⟨fun _ => rfl, fun _ => rfl⟩
  | name name =>
      have isFunction_eq := same name
      simp only [Arrangement.step] at step
      split at step
      · cases step
      · rename_i notAfter
        refine ⟨fun after => (notAfter after).elim, fun ends => ?_⟩
        split at step
        · rename_i rank ranked
          simp [endsFactor, isVariable, ← isFunction_eq, ranked] at ends
        · cases step
          rfl
  | operator op => exact ⟨fun _ => rfl, fun ends => Bool.noConfusion ends⟩
  | opening =>
      simp only [Arrangement.step] at step
      split at step
      · cases step
      · rename_i notAfter
        exact ⟨fun after => (notAfter after).elim, fun ends => Bool.noConfusion ends⟩
  | closing =>
      refine ⟨fun _ => rfl, fun _ => ?_⟩
      simp only [Arrangement.step] at step
      split at step
      · cases step
      · split at step
        · cases step
        · cases step
          rfl

/-- Tokens that are read to the end without a fault have no implied products. -/
theorem apart_of_foldlM_step {s ended : Arrangement}
    (run : tokens.foldlM (Arrangement.step rank?) s = .ok ended) : Apart isFunction tokens := by
  induction tokens generalizing s with
  | nil => exact .nil
  | cons t rest ih =>
      obtain ⟨next, first, later⟩ := foldlM_cons_eq_ok_iff.mp run
      refine List.isChain_cons.mpr ⟨?_, ih later⟩
      intro right head multiplied
      obtain ⟨ends, starts⟩ := multiplied_iff.mp multiplied
      have after := (Arrangement.factors_of_step same first).2 ends
      obtain ⟨rest, rfl⟩ := List.head?_eq_some_iff.mp head
      obtain ⟨_, second, -⟩ := foldlM_cons_eq_ok_iff.mp later
      rw [(Arrangement.factors_of_step same second).1 after] at starts
      cases starts

theorem apart_of_reversePolish {polish : List Token}
    (arranged : reversePolish rank? tokens = .ok polish) : Apart isFunction tokens := by
  rw [reversePolish] at arranged
  split at arranged
  · cases arranged
  · obtain ⟨ended, run, -⟩ := bind_eq_ok_iff.mp arranged
    exact apart_of_foldlM_step same run

end Arranged

/-- A product sign is put between two neighbours exactly if a product is implied between them, whether
the tokens are taken from the right or from the left. Doing it twice changes no more than doing it once,
and tokens that can be arranged as they are do not change at all. -/
theorem withProducts_laws (isFunction : String → Bool) (tokens : List Token) :
    (withProducts isFunction tokens = (List.finRange tokens.length).flatMap fun i =>
      tokens[i] :: signBetween isFunction (some tokens[i]) tokens[i.val + 1]?) ∧
    withProducts isFunction tokens = tokens.foldl (appendFactor isFunction) [] ∧
    withProducts isFunction (withProducts isFunction tokens) = withProducts isFunction tokens ∧
    ∀ (env : Environment) (polish : List Token),
      env.reversePolish tokens = .ok polish → env.withProducts tokens = tokens := by
  refine ⟨withProducts_eq_flatMap isFunction tokens, (foldl_appendFactor_eq isFunction tokens).symm,
    withProducts_of_apart (apart_withProducts isFunction tokens), ?_⟩
  intro env polish arranged
  exact withProducts_of_apart (apart_of_reversePolish env.functions.isSome_rank? arranged)

/-- A function of a group, and the same group behind a number. -/
theorem withProducts_laws_group :
    let env := Environment.initial .default
    let group : List Token := [.opening, .name "pi", .closing, .name "e"]
    let valid : List Token := [.name "cos", .opening, .name "pi", .closing, .operator .power, .name "e"]
    withProducts env.functions.contains (.number 2 :: group) =
      [.number 2, .operator .multiply, .opening, .name "pi", .closing, .operator .multiply,
        .name "e"] ∧
    env.reversePolish valid = .ok [.name "pi", .name "cos", .name "e", .operator .power] ∧
    env.withProducts valid = valid := by
  intro env group valid
  have arranged : env.reversePolish valid =
      .ok [.name "pi", .name "cos", .name "e", .operator .power] := rfl
  obtain ⟨-, -, -, unchanged⟩ := withProducts_laws env.functions.contains valid
  exact ⟨rfl, arranged, unchanged env _ arranged⟩

end SeriesCalculator.Token
