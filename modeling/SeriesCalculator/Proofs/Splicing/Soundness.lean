import SeriesCalculator.Proofs.Grammar.Arrangement
import SeriesCalculator.Proofs.Splicing.Completeness

/-!
# Splicing agrees with the tree builder

Only expressions are reduced: every item stands for some of the tokens all along (`Stand`), and
a value stands for an operand as long as functions are left, and for an expression afterwards.
The pass for a function lets only those functions stand before its calls that are entered later,
which are the ones whose passes are still to come (`called_succ`).

An expression has a parse, and its tree is the one that splicing gives. Arranging the tokens and
building the tree gives the same one, although it reads the tokens once and makes no passes
(`reduce_eq_some_iff_reversePolish`).
-/

namespace SeriesCalculator

namespace Splicing

variable {functions : List String}

/-- What an item stands for: a value for tokens that are good enough, a function that is
still to be called, an operator or a parenthesis for itself. -/
def Item.StandsFor (good : List Token → Prop) (pending : String → Prop) :
    Item → List Token → Prop
  | .value _, tokens => good tokens
  | .function f, tokens => tokens = [.name f] ∧ pending f
  | .operator op, tokens => tokens = [.operator op]
  | .opening, tokens => tokens = [.opening]
  | .closing, tokens => tokens = [.closing]

/-- The items stand for the tokens, one after the other. -/
inductive Stand (good : List Token → Prop) (pending : String → Prop) :
    List Item → List Token → Prop
  | nil : Stand good pending [] []
  | cons {item : Item} {items : List Item} {here tokens : List Token}
      (head : item.StandsFor good pending here) (tail : Stand good pending items tokens) :
      Stand good pending (item :: items) (here ++ tokens)

namespace Stand

variable {good good' : List Token → Prop} {pending pending' : String → Prop}
  {items : List Item} {tokens : List Token}

theorem append {xs ys : List Item} {us vs : List Token} (left : Stand good pending xs us)
    (right : Stand good pending ys vs) : Stand good pending (xs ++ ys) (us ++ vs) := by
  induction left with
  | nil => exact right
  | cons head _ ih =>
      rw [List.append_assoc]
      exact .cons head ih

theorem exists_of_append {xs ys : List Item} (h : Stand good pending (xs ++ ys) tokens) :
    ∃ us vs, tokens = us ++ vs ∧ Stand good pending xs us ∧ Stand good pending ys vs := by
  induction xs generalizing tokens with
  | nil => exact ⟨[], tokens, rfl, .nil, h⟩
  | cons item xs ih =>
      cases h with
      | cons head tail =>
          obtain ⟨us, vs, rfl, left, right⟩ := ih tail
          exact ⟨_, vs, (List.append_assoc ..).symm, .cons head left, right⟩

theorem exists_of_cons {item : Item} (h : Stand good pending (item :: items) tokens) :
    ∃ here rest, tokens = here ++ rest ∧ item.StandsFor good pending here ∧
      Stand good pending items rest := by
  cases h with
  | cons head tail => exact ⟨_, _, rfl, head, tail⟩

theorem of_value {e : Expr} (h : Stand good pending [.value e] tokens) : good tokens := by
  obtain ⟨here, rest, rfl, head, tail⟩ := h.exists_of_cons
  cases tail
  rwa [List.append_nil]

theorem mono (better : ∀ tokens, good tokens → good' tokens) (known : ∀ f, pending f → pending' f)
    (h : Stand good pending items tokens) : Stand good' pending' items tokens := by
  induction h with
  | nil => exact .nil
  | @cons item _ _ _ head _ ih =>
      refine .cons ?_ ih
      cases item with
      | value => exact better _ head
      | function => exact ⟨head.1, known _ head.2⟩
      | _ => exact head

end Stand

/-- The tokens of an operand before which the function of rank `k` may stand. -/
def Callable (functions : List String) (k : Nat) (tokens : List Token) : Prop :=
  Grammar.Operand (rankIn functions) tokens ∧ Grammar.MayPrecede (rankIn functions) k tokens

/-- The functions that the first `k` passes leave to be called. -/
def Pending (functions : List String) (k : Nat) (f : String) : Prop :=
  ∃ rank, rankIn functions f = some rank ∧ k ≤ rank

/-- The items stand for the tokens after the passes for the first `k` functions. -/
abbrev Called (functions : List String) (k : Nat) : List Item → List Token → Prop :=
  Stand (Callable functions k) (Pending functions k)

theorem called_ofToken (tokens : List Token) :
    Called functions 0 (tokens.map (Item.ofToken functions)) tokens := by
  induction tokens with
  | nil => exact .nil
  | cons token tokens ih =>
      suffices head : (Item.ofToken functions token).StandsFor (Callable functions 0)
          (Pending functions 0) [token] from .cons head ih
      cases token with
      | number x => exact ⟨.number x, fun _ _ head => by simp at head⟩
      | name n =>
          by_cases known : n ∈ functions
          · rw [Item.ofToken, if_pos known]
            cases ranked : rankIn functions n with
            | none => exact absurd known (rankIn_eq_none_iff.mp ranked)
            | some rank => exact ⟨rfl, rank, ranked, Nat.zero_le _⟩
          · rw [Item.ofToken, if_neg known]
            have free := rankIn_eq_none_iff.mpr known
            refine ⟨.variable free, ?_⟩
            intro inner _ head ranked
            cases head
            rw [free] at ranked
            cases ranked
      | _ => rfl

theorem getElem?_of_rankIn {f : String} {rank : Nat} (ranked : rankIn functions f = some rank) :
    functions[rank]? = some f := by
  obtain ⟨bound, same, -⟩ := List.findIdx?_eq_some_iff_getElem.mp ranked
  rw [List.getElem?_eq_getElem bound]
  exact congrArg some (by simpa using same)

theorem rank_le_of_getElem? {k rank : Nat} {f : String} (here : functions[k]? = some f)
    (ranked : rankIn functions f = some rank) : rank ≤ k := by
  obtain ⟨_, -, earlier⟩ := List.findIdx?_eq_some_iff_getElem.mp ranked
  obtain ⟨_, atRank⟩ := List.getElem?_eq_some_iff.mp here
  apply Nat.not_lt.mp
  intro less
  have := earlier k less
  simp [atRank] at this

/-- A function that is still to be called and is not the next one is called later. -/
theorem succ_le_of_ne {k rank : Nat} {f g : String} (here : functions[k]? = some f)
    (ranked : rankIn functions g = some rank) (le : k ≤ rank) (ne : g ≠ f) : k + 1 ≤ rank := by
  have : rank ≠ k := by
    rintro rfl
    exact ne (Option.some.inj ((getElem?_of_rankIn ranked).symm.trans here))
  omega

theorem mayPrecede_succ {rank? : String → Option Nat} {k : Nat} {tokens : List Token}
    (h : Grammar.MayPrecede rank? k tokens) : Grammar.MayPrecede rank? (k + 1) tokens := by
  intro inner innerRank head ranked
  exact Nat.lt_succ_of_lt (h inner innerRank head ranked)

/-- The pass for the next function. An operand that it makes begins with this function, so
that only later functions may stand before it. -/
theorem called_succ {k : Nat} {f : String} (here : functions[k]? = some f) (items : List Item)
    {items' : List Item} {tokens : List Token} (h : Called functions k items tokens)
    (ran : (Pass.call f).run items = some items') : Called functions (k + 1) items' tokens := by
  cases h with
  | nil =>
      rw [Pass.run_of_not_mem List.not_mem_nil] at ran
      cases ran
      exact .nil
  | @cons item items us _ head tail =>
      by_cases subject : item = .function f
      · subst subject
        obtain ⟨rfl, rank, ranked, le⟩ := head
        obtain rfl := Nat.le_antisymm (rank_le_of_getElem? here ranked) le
        obtain ⟨e, rest, rest', rfl, ranRest, rfl⟩ := of_run_call_cons ran
        obtain ⟨argument, vs, rfl, ⟨operand, precedes⟩, others⟩ := tail.exists_of_cons
        rw [List.singleton_append, ← List.cons_append]
        refine .cons ⟨.call ranked precedes operand, ?_⟩ (called_succ here rest others ranRest)
        intro inner innerRank first innerRanked
        cases first
        rw [ranked] at innerRanked
        cases innerRanked
        exact Nat.lt_succ_self _
      · rw [run_call_cons_of_ne subject] at ran
        obtain ⟨rest, ranRest, rfl⟩ := Option.map_eq_some_iff.mp ran
        refine .cons ?_ (called_succ here items tail ranRest)
        cases item with
        | value => exact ⟨head.1, mayPrecede_succ head.2⟩
        | function g =>
            obtain ⟨same, rank, ranked, le⟩ := head
            have ne : g ≠ f := fun same => subject (congrArg Item.function same)
            exact ⟨same, rank, ranked, succ_le_of_ne here ranked le ne⟩
        | _ => exact head
termination_by items.length

theorem called_length {earlier later : List String} (split : functions = earlier ++ later)
    {items values : List Item} {tokens : List Token}
    (h : Called functions earlier.length items tokens)
    (ran : runAll (calls later) items = some values) :
    Called functions functions.length values tokens := by
  induction later generalizing earlier items with
  | nil =>
      cases ran
      have all : functions.length = earlier.length := by rw [split, List.append_nil]
      rwa [all]
  | cons f later ih =>
      obtain ⟨next, first, rest⟩ := Option.bind_eq_some_iff.mp ran
      have here : functions[earlier.length]? = some f := by
        rw [split, List.getElem?_append_right (Nat.le_refl _)]
        simp
      have called := called_succ here items h first
      have split' : functions = (earlier ++ [f]) ++ later := by simpa using split
      exact ih split' (by simpa using called) rest

/-- The items stand for the tokens once all functions have been called. -/
abbrev Operated (functions : List String) : List Item → List Token → Prop :=
  Stand (Grammar.Expression (rankIn functions)) fun _ => False

theorem operated_of_called {items : List Item} {tokens : List Token}
    (h : Called functions functions.length items tokens) : Operated functions items tokens := by
  refine h.mono (fun _ good => .operand good.1) ?_
  rintro f ⟨rank, ranked, le⟩
  obtain ⟨bound, -⟩ := List.findIdx?_eq_some_iff_getElem.mp ranked
  omega

/-- An operator turns two values that stand for expressions into one. -/
theorem operated_operate {op : Operator} {items items' : List Item} {tokens : List Token}
    (h : Operated functions items tokens) (ran : (Pass.operate op).run items = some items') :
    Operated functions items' tokens := by
  induction items using Pass.run_induction (.operate op) generalizing tokens with
  | absent items missing =>
      rw [Pass.run_of_not_mem missing] at ran
      cases ran
      exact h
  | leftmost front after missing ih =>
      rw [Pass.run_append_mark missing] at ran
      obtain ⟨⟨before, e, after'⟩, contracted, ran⟩ := Option.bind_eq_some_iff.mp ran
      refine ih before e after' contracted ?_ ran
      obtain ⟨a, b, front_eq, rfl, rfl⟩ := of_contract_operate contracted
      have front_split : front = before.reverse ++ [.value a] := by
        rw [← List.reverse_cons, ← front_eq, List.reverse_reverse]
      rw [front_split] at h
      obtain ⟨frontTokens, others, rfl, hFront, hOthers⟩ := h.exists_of_append
      obtain ⟨beforeTokens, left, rfl, hBefore, hLeft⟩ := hFront.exists_of_append
      obtain ⟨sign, rest, rfl, hSign, hRest⟩ := hOthers.exists_of_cons
      obtain rfl : sign = [.operator op] := hSign
      obtain ⟨right, afterTokens, rfl, hRight, hAfter⟩ := hRest.exists_of_cons
      have value : (Item.value (.binary op a b)).StandsFor (Grammar.Expression (rankIn functions))
          (fun _ => False) (left ++ .operator op :: right) := hLeft.of_value.append op hRight
      simpa using hBefore.append (.cons value hAfter)

theorem operated_operations {ops : List Operator} {items values : List Item} {tokens : List Token}
    (h : Operated functions items tokens)
    (ran : runAll (ops.map .operate) items = some values) : Operated functions values tokens := by
  induction ops generalizing items with
  | nil =>
      cases ran
      exact h
  | cons op ops ih =>
      obtain ⟨next, first, rest⟩ := Option.bind_eq_some_iff.mp ran
      exact ih (operated_operate h first) rest

theorem expression_of_reduceGroup {items : List Item} {tokens : List Token} {e : Expr}
    (h : Called functions 0 items tokens) (reduced : reduceGroup functions items = some e) :
    Grammar.Expression (rankIn functions) tokens := by
  rw [reduceGroup_eq_some_iff, passes_eq, runAll_append] at reduced
  obtain ⟨values, called, operated⟩ := Option.bind_eq_some_iff.mp reduced
  have all : Called functions functions.length values tokens :=
    called_length (List.nil_append _).symm h called
  exact (operated_operations (operated_of_called all) operated).of_value

/-- A group in parentheses is an operand, before which every function may stand. -/
theorem expression_of_reduce {items : List Item} {tokens : List Token} {e : Expr}
    (h : Called functions 0 items tokens) (reduced : reduce functions items = some e) :
    Grammar.Expression (rankIn functions) tokens := by
  induction items using reduce.induct generalizing tokens with
  | case1 items flat =>
      rw [reduce_of_not_mem (splitAt?_eq_none_iff.mp flat)] at reduced
      exact expression_of_reduceGroup h reduced
  | case2 items front after closed unopened =>
      obtain ⟨rfl, absent⟩ := splitAt?_eq_some_iff.mp closed
      rw [reduce_unopened after (by simpa using absent)
        (by simpa using splitAt?_eq_none_iff.mp unopened)] at reduced
      cases reduced
  | case3 items front after closed inside before opened ih =>
      obtain ⟨rfl, closing⟩ := splitAt?_eq_some_iff.mp closed
      obtain ⟨rfl, opening⟩ := splitAt?_eq_some_iff.mp opened
      simp only [List.mem_append, List.mem_reverse, List.mem_cons, not_or] at closing
      have whole : (inside.reverse ++ .opening :: before).reverse ++ .closing :: after =
          before.reverse ++ .opening :: (inside ++ .closing :: after) := by simp
      rw [whole] at h reduced
      rw [reduce_group after (by simpa using closing.2.2)
        ⟨by simpa using opening, by simpa using closing.1⟩] at reduced
      obtain ⟨value, valued, reduced⟩ := Option.bind_eq_some_iff.mp reduced
      obtain ⟨beforeTokens, others, rfl, hBefore, hOthers⟩ := h.exists_of_append
      obtain ⟨_, rest, rfl, rfl, hRest⟩ := hOthers.exists_of_cons
      obtain ⟨insideTokens, last, rfl, hInside, hLast⟩ := hRest.exists_of_append
      obtain ⟨_, afterTokens, rfl, rfl, hAfter⟩ := hLast.exists_of_cons
      have group : (Item.value value).StandsFor (Callable functions 0) (Pending functions 0)
          (.opening :: insideTokens ++ [.closing]) :=
        ⟨.group (expression_of_reduceGroup hInside valued), fun _ _ head => by simp at head⟩
      have expression := ih value (hBefore.append (.cons group hAfter)) reduced
      simpa using expression

theorem reduce_eq_some_iff {tokens : List Token} {e : Expr} :
    reduce functions (tokens.map (Item.ofToken functions)) = some e ↔
      Grammar.Parse (rankIn functions) 0 tokens e := by
  constructor
  · intro reduced
    obtain ⟨other, parse⟩ := (expression_of_reduce (called_ofToken tokens) reduced).exists_parse
    rw [reduce_of_parse parse] at reduced
    cases reduced
    exact parse
  · exact reduce_of_parse

end Splicing

namespace Environment

theorem rank?_eq_rankIn (env : Environment) :
    env.functions.rank? = Splicing.rankIn env.functions.names := by
  funext name
  rw [Splicing.rankIn, FunctionTable.names, List.findIdx?_map]
  rfl

/-- Splicing and arranging followed by building succeed on the same tokens with the same
tree. -/
theorem reduce_eq_some_iff_reversePolish (env : Environment) (tokens : List Token) (e : Expr) :
    Splicing.reduce env.functions.names (tokens.map (.ofToken env.functions.names)) = some e ↔
      (env.reversePolish tokens >>= env.treeOf) = .ok e := by
  rw [Splicing.reduce_eq_some_iff, reversePolish_bind_treeOf_eq_ok_iff, rank?_eq_rankIn]

end Environment

end SeriesCalculator
