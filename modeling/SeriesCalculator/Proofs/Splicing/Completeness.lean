import SeriesCalculator.Proofs.Grammar.Basic
import SeriesCalculator.Proofs.Splicing.Basic

/-!
# Every parse is reduced by splicing

Along a parse the groups give way to values, whatever stands before and behind them (`Flattens`).
Of what is left, the functions of an operand are contracted from the inside outwards, since
their ranks fall from the left to the right (`exists_flattens_operand`). The operators of a layer
are contracted once all stronger ones are gone, and the last one of them is the outermost
(`exists_flattens`).
-/

namespace SeriesCalculator.Splicing

/-- The rank of a name in a list of functions. -/
def rankIn (functions : List String) (name : String) : Option Nat :=
  functions.findIdx? (· == name)

theorem rankIn_eq_none_iff {functions : List String} {name : String} :
    rankIn functions name = none ↔ name ∉ functions := by
  rw [rankIn, List.findIdx?_eq_none_iff]
  constructor
  · intro h mem
    simpa using h name mem
  · intro h other mem
    simpa using fun same : other = name => h (same ▸ mem)

/-- The function of rank `rank` follows as many functions with other names. -/
theorem take_of_rankIn {functions : List String} {name : String} {rank : Nat}
    (h : rankIn functions name = some rank) :
    name ∈ functions ∧ name ∉ functions.take rank ∧
      ∀ k, rank < k → ∃ after, functions.take k = functions.take rank ++ name :: after := by
  obtain ⟨bound, here, earlier⟩ := List.findIdx?_eq_some_iff_getElem.mp h
  have atRank : functions[rank] = name := by simpa using here
  refine ⟨atRank ▸ List.getElem_mem bound, ?_, ?_⟩
  · intro mem
    obtain ⟨i, hi, same⟩ := List.mem_take_iff_getElem.mp mem
    have := earlier i (by omega)
    simp [same] at this
  · intro k less
    have inside : rank < (functions.take k).length := by
      rw [List.length_take]
      omega
    refine ⟨(functions.take k).drop (rank + 1), ?_⟩
    have split := List.take_append_drop rank (functions.take k)
    rw [List.take_take, Nat.min_eq_left (Nat.le_of_lt less), List.drop_eq_getElem_cons inside,
      List.getElem_take, atRank] at split
    exact split.symm

/-- The items that are left of some tokens once their groups have been reduced, whatever
stands before and behind them. -/
structure Flattens (functions : List String) (tokens : List Token) (items : List Item) :
    Prop where
  flat : .opening ∉ items ∧ .closing ∉ items
  reduces : ∀ before rest, .closing ∉ before →
    reduce functions (before ++ (tokens.map (Item.ofToken functions) ++ rest)) =
      reduce functions (before ++ (items ++ rest))

namespace Flattens

variable {functions : List String}

theorem single {token : Token} (value : token ≠ .opening ∧ token ≠ .closing) :
    Flattens functions [token] [Item.ofToken functions token] := by
  refine ⟨?_, fun _ _ _ => rfl⟩
  cases token with
  | number => simp [Item.ofToken]
  | name n => by_cases known : n ∈ functions <;> simp [Item.ofToken, known]
  | operator => simp [Item.ofToken]
  | opening => exact absurd rfl value.1
  | closing => exact absurd rfl value.2

theorem append {left right : List Token} {xs ys : List Item}
    (hl : Flattens functions left xs) (hr : Flattens functions right ys) :
    Flattens functions (left ++ right) (xs ++ ys) := by
  refine ⟨by simp [hl.flat, hr.flat], ?_⟩
  intro before rest flatBefore
  have second := hr.reduces (before ++ xs) rest (by simp [flatBefore, hl.flat])
  rw [List.map_append, List.append_assoc, hl.reduces before _ flatBefore, ← List.append_assoc,
    second]
  simp only [List.append_assoc]

theorem group {tokens : List Token} {items : List Item} {e : Expr}
    (h : Flattens functions tokens items) (value : reduceGroup functions items = some e) :
    Flattens functions (.opening :: tokens ++ [.closing]) [.value e] := by
  refine ⟨by simp, ?_⟩
  intro before rest flatBefore
  have inside := h.reduces (before ++ [.opening]) (.closing :: rest) (by simp [flatBefore])
  have closed : reduce functions (before ++ .opening :: (items ++ .closing :: rest)) = _ :=
    reduce_group rest flatBefore h.flat
  rw [value, Option.bind_some] at closed
  simpa [Item.ofToken] using inside.trans (by simpa using closed)

end Flattens

/-- The passes for some functions in their order. -/
abbrev calls (functions : List String) : List Pass := functions.map .call

/-- The operators that bind at least as strongly as `p`, the strongest first. -/
def operators (p : Nat) : List Operator := Operator.all.filter (p ≤ ·.precedence)

/-- The passes for these operators in their order. -/
abbrev operations (p : Nat) : List Pass := (operators p).map .operate

theorem passes_eq (functions : List String) :
    passes functions = calls functions ++ operations 0 := rfl

theorem operators_precedence (op : Operator) :
    operators op.precedence = operators (op.precedence + 1) ++ [op] := by
  cases op <;> rfl

theorem operators_of_le {p : Nat} {op : Operator} (le : p ≤ op.precedence) :
    ∃ weaker, operators p = operators op.precedence ++ weaker := by
  have table : ∀ p < 6, p ≤ op.precedence →
      operators p =
        operators op.precedence ++ (operators p).drop (operators op.precedence).length := by
    cases op <;> decide
  have bound : op.precedence < 6 := by cases op <;> decide
  exact ⟨_, table p (Nat.lt_of_le_of_lt le bound) le⟩

theorem mark_ne_of_mem_calls {functions : List String} {op : Operator} :
    ∀ pass ∈ calls functions, pass.mark ≠ .operator op := by
  intro pass mem same
  obtain ⟨f, -, rfl⟩ := List.mem_map.mp mem
  cases same

theorem mark_ne_of_mem_operations {op : Operator} :
    ∀ pass ∈ operations (op.precedence + 1), pass.mark ≠ .operator op := by
  intro pass mem same
  obtain ⟨stronger, hs, rfl⟩ := List.mem_map.mp mem
  have bound := (List.mem_filter.mp hs).2
  cases same
  simp only [decide_eq_true_eq] at bound
  omega

/-- A call does not look at what stands before it. -/
theorem run_call_append {f : String} {front : List Item} (absent : .function f ∉ front)
    (items : List Item) :
    (Pass.call f).run (front ++ items) = ((Pass.call f).run items).map (front ++ ·) := by
  induction items using Pass.run_induction (.call f) with
  | absent items missing =>
      rw [Pass.run_of_not_mem missing, Pass.run_of_not_mem]
      · rfl
      · exact fun mem => (List.mem_append.mp mem).elim absent missing
  | leftmost before after missing ih =>
      have missing_whole : (Pass.call f).mark ∉ front ++ before :=
        fun mem => (List.mem_append.mp mem).elim absent missing
      rw [← List.append_assoc, Pass.run_append_mark missing_whole, Pass.run_append_mark missing]
      cases after with
      | nil => rfl
      | cons item after =>
          cases item with
          | value argument =>
              have rest := ih before.reverse (.call f argument) after rfl
              simpa [Pass.contract] using rest
          | _ => rfl

theorem run_call_cons_of_ne {f : String} {item : Item} (ne : item ≠ .function f)
    (items : List Item) :
    (Pass.call f).run (item :: items) = ((Pass.call f).run items).map (item :: ·) := by
  have absent : .function f ∉ [item] := by simpa using ne.symm
  exact run_call_append absent items

theorem runAll_calls_cons {f : String} {functions : List String} (absent : f ∉ functions)
    (items : List Item) :
    runAll (calls functions) (.function f :: items) =
      (runAll (calls functions) items).map (.function f :: ·) := by
  induction functions generalizing items with
  | nil => rfl
  | cons g functions ih =>
      obtain ⟨ne, absent⟩ := not_or.mp (fun h => absent (List.mem_cons.mpr h))
      have other : Item.function f ≠ .function g := fun same => ne (Item.function.inj same)
      simp only [calls, List.map_cons, runAll_cons]
      rw [run_call_cons_of_ne other]
      cases (Pass.call g).run items with
      | none => rfl
      | some items => exact ih absent items

theorem run_call_cons (f : String) (items : List Item) :
    (Pass.call f).run (.function f :: items) =
      ((Pass.call f).contract [] items).bind fun (before, e, after) =>
        (Pass.call f).run (before.reverse ++ .value e :: after) :=
  Pass.run_append_mark List.not_mem_nil

theorem run_call_value (f : String) (e : Expr) :
    (Pass.call f).run [.function f, .value e] = some [.value (.call f e)] :=
  (run_call_cons f [.value e]).trans (Pass.run_of_not_mem (by simp [Pass.mark]))

/-- A function that is called in the end stands before a value. -/
theorem of_run_call_cons {f : String} {items items' : List Item}
    (ran : (Pass.call f).run (.function f :: items) = some items') :
    ∃ e rest rest', items = .value e :: rest ∧ (Pass.call f).run rest = some rest' ∧
      items' = .value (.call f e) :: rest' := by
  rw [run_call_cons] at ran
  obtain ⟨⟨before, e, after⟩, contracted, continued⟩ := Option.bind_eq_some_iff.mp ran
  cases items with
  | nil => cases contracted
  | cons item rest =>
      cases item with
      | value argument =>
          cases contracted
          change (Pass.call f).run (.value (.call f argument) :: after) = some items' at continued
          rw [run_call_cons_of_ne (by simp)] at continued
          obtain ⟨rest', ranRest, rfl⟩ := Option.map_eq_some_iff.mp continued
          exact ⟨argument, after, rest', rfl, ranRest, rfl⟩
      | _ => cases contracted

theorem of_contract_operate {op : Operator} {before after before' after' : List Item} {e : Expr}
    (h : (Pass.operate op).contract before after = some (before', e, after')) :
    ∃ a b, before = .value a :: before' ∧ after = .value b :: after' ∧ e = .binary op a b := by
  cases before with
  | nil => cases h
  | cons left before =>
      cases after with
      | nil => cases left <;> cases h
      | cons right after =>
          cases left <;> cases right <;> cases h
          exact ⟨_, _, rfl, rfl, rfl⟩

theorem run_operate_values (op : Operator) (a b : Expr) :
    (Pass.operate op).run [.value a, .operator op, .value b] = some [.value (.binary op a b)] := by
  have absent : (Pass.operate op).mark ∉ [.value a] := by simp [Pass.mark]
  refine (Pass.run_append_mark absent).trans ?_
  exact Pass.run_of_not_mem (by simp [Pass.mark])

/-- An operator between two values that its layer leaves over is contracted last. -/
theorem runAll_operations_binary {op : Operator} {xs ys : List Item} {a b : Expr}
    (hl : runAll (operations op.precedence) xs = some [.value a])
    (hr : runAll (operations (op.precedence + 1)) ys = some [.value b]) :
    runAll (operations op.precedence) (xs ++ .operator op :: ys) =
      some [.value (.binary op a b)] := by
  have layers : operations op.precedence = operations (op.precedence + 1) ++ [.operate op] := by
    simp only [operations, operators_precedence, List.map_append, List.map_cons, List.map_nil]
  rw [layers, runAll_append] at hl ⊢
  obtain ⟨xs', stronger, last⟩ := Option.bind_eq_some_iff.mp hl
  have last : (Pass.operate op).run xs' = some [.value a] := by
    simpa [runAll_cons, runAll] using last
  rw [runAll_append_operator mark_ne_of_mem_operations, stronger, hr]
  change ((Pass.operate op).run (xs' ++ [.operator op, .value b])).bind (runAll []) = _
  rw [Pass.run_append_of_run last, List.singleton_append, run_operate_values]
  rfl

theorem runAll_operations_of_le {p : Nat} {op : Operator} (le : p ≤ op.precedence)
    {items : List Item} {e : Expr} (h : runAll (operations op.precedence) items = some [.value e]) :
    runAll (operations p) items = some [.value e] := by
  obtain ⟨weaker, split⟩ := operators_of_le le
  rw [operations, split, List.map_append, runAll_append, h, Option.bind_some, runAll_value]

variable {functions : List String}

mutual

/-- The functions of an operand are contracted from the inside outwards. The outermost
one comes last, so the passes up to its own are enough. -/
theorem exists_flattens_operand {tokens : List Token} {e : Expr} :
    Grammar.ParseOperand (rankIn functions) tokens e → ∃ items, Flattens functions tokens items ∧
      ∀ k, Grammar.MayPrecede (rankIn functions) k tokens →
        runAll (calls (functions.take k)) items = some [.value e]
  | .number value => ⟨[_], .single (by simp), fun _ _ => runAll_value _ _⟩
  | @Grammar.ParseOperand.variable _ name free => by
      refine ⟨_, .single (by simp), ?_⟩
      rw [Item.ofToken, if_neg (rankIn_eq_none_iff.mp free)]
      exact fun _ _ => runAll_value _ _
  | @Grammar.ParseOperand.group _ _ e inner => by
      obtain ⟨items, values, flattens, called, operated⟩ := exists_flattens inner
      have value : reduceGroup functions items = some e := by
        rw [reduceGroup_eq_some_iff, passes_eq, runAll_append, called]
        exact operated
      exact ⟨_, flattens.group value, fun _ _ => runAll_value _ _⟩
  | @Grammar.ParseOperand.call _ f rank tokens e ranked before argument => by
      obtain ⟨items, flattens, called⟩ := exists_flattens_operand argument
      obtain ⟨known, absent, takes⟩ := take_of_rankIn ranked
      have single : Flattens functions [.name f] [.function f] := by
        have name : Flattens functions [.name f] _ := .single (by simp)
        simpa [Item.ofToken, known] using name
      refine ⟨_, single.append flattens, ?_⟩
      intro k precedes
      obtain ⟨after, passes⟩ := takes k (precedes f rank rfl ranked)
      have inner : runAll (calls (functions.take rank)) (.function f :: items) =
          some [.function f, .value e] := by
        rw [runAll_calls_cons absent, called rank before]
        rfl
      rw [List.singleton_append, passes, calls, List.map_append, runAll_append, inner,
        Option.bind_some, List.map_cons, runAll_cons, run_call_value, Option.bind_some,
        runAll_value]

/-- Once its groups are reduced and its functions called, the operators of an expression
are contracted layer by layer. -/
theorem exists_flattens {p : Nat} {tokens : List Token} {e : Expr} :
    Grammar.Parse (rankIn functions) p tokens e →
      ∃ items values, Flattens functions tokens items ∧
        runAll (calls functions) items = some values ∧
        runAll (operations p) values = some [.value e]
  | .operand h => by
      obtain ⟨items, flattens, called⟩ := exists_flattens_operand h
      have all := called functions.length (by
        intro inner innerRank _ ranked
        obtain ⟨bound, -⟩ := List.findIdx?_eq_some_iff_getElem.mp ranked
        exact bound)
      rw [List.take_length] at all
      exact ⟨items, _, flattens, all, runAll_value _ _⟩
  | @Grammar.Parse.binary _ _ left right op a b le hl hr => by
      obtain ⟨xs, vs, flatLeft, calledLeft, operatedLeft⟩ := exists_flattens hl
      obtain ⟨ys, ws, flatRight, calledRight, operatedRight⟩ := exists_flattens hr
      have sign : Flattens functions [.operator op] [.operator op] := .single (by simp)
      refine ⟨xs ++ .operator op :: ys, vs ++ .operator op :: ws,
        by simpa using flatLeft.append (sign.append flatRight), ?_, ?_⟩
      · rw [runAll_append_operator mark_ne_of_mem_calls, calledLeft, calledRight]
        rfl
      · exact runAll_operations_of_le le (runAll_operations_binary operatedLeft operatedRight)

end

theorem reduce_of_parse {tokens : List Token} {e : Expr}
    (h : Grammar.Parse (rankIn functions) 0 tokens e) :
    reduce functions (tokens.map (Item.ofToken functions)) = some e := by
  obtain ⟨items, values, flattens, called, operated⟩ := exists_flattens h
  have flat := flattens.reduces [] [] List.not_mem_nil
  simp only [List.nil_append, List.append_nil] at flat
  rw [flat, reduce_of_not_mem flattens.flat.2, reduceGroup_eq_some_iff, passes_eq, runAll_append,
    called]
  exact operated

end SeriesCalculator.Splicing
