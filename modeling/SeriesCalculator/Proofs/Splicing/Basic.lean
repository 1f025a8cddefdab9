import SeriesCalculator.Reading

/-!
# Reduction by splicing

A list of items is reduced to one value by replacing parts of it with values. Groups
come first, the innermost ones before those around them. Inside a group every
function in the order of the ranks, and then every operator from the strongest to
the weakest, is the subject of one pass: as long as it occurs, its leftmost
occurrence is contracted with the values next to it, and where they are missing the
reduction fails. In the end one value must be left.

The equations of a pass say what it does to a list without its subject
(`run_of_not_mem`), at the leftmost occurrence (`run_append_mark`), on both sides of
an operator that is not its subject (`run_append_operator`), and to the first part
of a list (`run_append_of_run`).
-/

namespace SeriesCalculator.Splicing

/-- What tokens turn into while they are reduced. -/
inductive Item
  | value (e : Expr)
  | function (name : String)
  | operator (op : Operator)
  | opening
  | closing
  deriving DecidableEq

/-- A number or a variable is a value from the beginning. -/
def Item.ofToken (functions : List String) : Token → Item
  | .number x => .value (.number x)
  | .name n => if n ∈ functions then .function n else .value (.variable n)
  | .operator op => .operator op
  | .opening => .opening
  | .closing => .closing

/-- Splits a list at the leftmost occurrence of an item into what comes before it, the
nearest first, and what comes after it. -/
def splitAt? (mark : Item) : List Item → Option (List Item × List Item)
  | [] => none
  | item :: items =>
    if item = mark then some ([], items)
    else (splitAt? mark items).map fun (before, after) => (before ++ [item], after)

theorem splitAt?_append_mark {mark : Item} {front : List Item} (absent : mark ∉ front)
    (after : List Item) : splitAt? mark (front ++ mark :: after) = some (front.reverse, after) := by
  induction front with
  | nil => simp [splitAt?]
  | cons item front ih =>
      obtain ⟨ne, absent⟩ := not_or.mp (fun h => absent (List.mem_cons.mpr h))
      rw [List.cons_append, splitAt?, if_neg (Ne.symm ne), ih absent]
      simp

theorem splitAt?_eq_none_iff {mark : Item} {items : List Item} :
    splitAt? mark items = none ↔ mark ∉ items := by
  induction items with
  | nil => simp [splitAt?]
  | cons item items ih =>
      by_cases h : item = mark
      · simp [splitAt?, h]
      · simp [splitAt?, h, ih, Ne.symm h]

theorem splitAt?_eq_some_iff {mark : Item} {items before after : List Item} :
    splitAt? mark items = some (before, after) ↔
      items = before.reverse ++ mark :: after ∧ mark ∉ before := by
  constructor
  · intro h
    induction items generalizing before with
    | nil => cases h
    | cons item items ih =>
        rw [splitAt?] at h
        split at h
        · rename_i isMark
          cases h
          exact ⟨by simp [isMark], List.not_mem_nil⟩
        · rename_i ne
          obtain ⟨⟨front, rest⟩, split, pair⟩ := Option.map_eq_some_iff.mp h
          cases pair
          obtain ⟨rfl, absent⟩ := ih split
          exact ⟨by simp, by simp [absent, Ne.symm ne]⟩
  · rintro ⟨rfl, absent⟩
    rw [splitAt?_append_mark (by simpa using absent), List.reverse_reverse]

/-- A pass over a list contracts all occurrences of one function or of one operator. -/
inductive Pass
  | call (function : String)
  | operate (op : Operator)

namespace Pass

/-- The item whose occurrences are contracted. -/
def mark : Pass → Item
  | call f => .function f
  | operate op => .operator op

/-- Contracts an occurrence between the items before it, of which the nearest comes
first, and the items after it. A function takes the value after it, an operator the
values on both sides. The answer is the new value with what is left around it. -/
def contract : Pass → List Item → List Item → Option (List Item × Expr × List Item)
  | call f, before, .value argument :: after => some (before, .call f argument, after)
  | operate op, .value left :: before, .value right :: after =>
    some (before, .binary op left right, after)
  | _, _, _ => none

theorem length_of_contract {pass : Pass} {before after before' after' : List Item} {e : Expr}
    (h : pass.contract before after = some (before', e, after')) :
    before'.length + after'.length < before.length + after.length := by
  unfold contract at h
  split at h <;> cases h <;> simp only [List.length_cons] <;> omega

/-- Contracts the leftmost occurrence as long as there is one. -/
def run (pass : Pass) (items : List Item) : Option (List Item) :=
  match _found : splitAt? pass.mark items with
  | none => some items
  | some (before, after) =>
    match _contracted : pass.contract before after with
    | none => none
    | some (before, e, after) => run pass (before.reverse ++ .value e :: after)
termination_by items.length
decreasing_by
  obtain ⟨rfl, -⟩ := splitAt?_eq_some_iff.mp _found
  have shorter := length_of_contract _contracted
  simp only [List.length_append, List.length_cons, List.length_reverse]
  omega

variable {pass : Pass}

theorem run_eq (pass : Pass) (items : List Item) :
    pass.run items =
      match splitAt? pass.mark items with
      | none => some items
      | some (before, after) => (pass.contract before after).bind fun (before, e, after) =>
          pass.run (before.reverse ++ .value e :: after) := by
  rw [run]
  split
  · rename_i found
    rw [found]
  · rename_i found
    rw [found]
    split
    · rename_i stuck
      simp [stuck]
    · rename_i contracted
      simp [contracted]

theorem run_of_not_mem {items : List Item} (absent : pass.mark ∉ items) :
    pass.run items = some items := by
  rw [run_eq, splitAt?_eq_none_iff.mpr absent]

/-- The leftmost occurrence is contracted first. -/
theorem run_append_mark {front after : List Item} (absent : pass.mark ∉ front) :
    pass.run (front ++ pass.mark :: after) =
      (pass.contract front.reverse after).bind fun (before, e, after) =>
        pass.run (before.reverse ++ .value e :: after) := by
  rw [run_eq, splitAt?_append_mark absent after]

theorem contract_append_operator (before after rest : List Item) (op : Operator) :
    pass.contract before (after ++ .operator op :: rest) =
      (pass.contract before after).map fun (before, e, after) =>
        (before, e, after ++ .operator op :: rest) := by
  cases pass with
  | call f =>
      cases after with
      | nil => rfl
      | cons item after => cases item <;> rfl
  | operate mark =>
      cases before with
      | nil => cases after <;> rfl
      | cons left before =>
          cases after with
          | nil => cases left <;> rfl
          | cons right after => cases left <;> cases right <;> rfl

theorem contract_operator_append (before after rest : List Item) (op : Operator) :
    pass.contract (before ++ .operator op :: rest) after =
      (pass.contract before after).map fun (before, e, after) =>
        (before ++ .operator op :: rest, e, after) := by
  cases pass with
  | call f =>
      cases after with
      | nil => rfl
      | cons item after => cases item <;> rfl
  | operate mark =>
      cases before with
      | nil => cases after <;> rfl
      | cons left before =>
          cases after with
          | nil => cases left <;> rfl
          | cons right after => cases left <;> cases right <;> rfl

/-- Every contraction that is made on the first part of a list is made on the whole list. -/
theorem contract_append {before after before' after' : List Item} {e : Expr}
    (h : pass.contract before after = some (before', e, after')) (rest : List Item) :
    pass.contract before (after ++ rest) = some (before', e, after' ++ rest) := by
  unfold contract at h
  split at h <;> cases h <;> rfl

/-- Induction along a pass: a list without the subject, or one whose leftmost occurrence
is contracted first. -/
theorem run_induction (pass : Pass) {motive : List Item → Prop}
    (absent : ∀ items, pass.mark ∉ items → motive items)
    (leftmost : ∀ front after, pass.mark ∉ front →
      (∀ before e after', pass.contract front.reverse after = some (before, e, after') →
        motive (before.reverse ++ .value e :: after')) →
      motive (front ++ pass.mark :: after)) (items : List Item) : motive items := by
  induction lengthEq : items.length using Nat.strongRecOn generalizing items with
  | ind n ih =>
      cases found : splitAt? pass.mark items with
      | none => exact absent items (splitAt?_eq_none_iff.mp found)
      | some parts =>
          obtain ⟨front, after⟩ := parts
          obtain ⟨rfl, missing⟩ := splitAt?_eq_some_iff.mp found
          refine leftmost front.reverse after (by simpa using missing) ?_
          intro before e after' contracted
          have shorter := length_of_contract contracted
          refine ih _ ?_ _ rfl
          simp only [List.length_append, List.length_cons, List.length_reverse]
            at shorter lengthEq ⊢
          omega

/-- Once a pass has been made on the first part of a list, it can go on from there. -/
theorem run_append_of_run {xs xs' : List Item} (h : pass.run xs = some xs') (ys : List Item) :
    pass.run (xs ++ ys) = pass.run (xs' ++ ys) := by
  induction xs using run_induction pass with
  | absent xs missing =>
      rw [run_of_not_mem missing] at h
      cases h
      rfl
  | leftmost front after missing ih =>
      rw [run_append_mark missing] at h
      obtain ⟨⟨before, e, after'⟩, contracted, rest⟩ := Option.bind_eq_some_iff.mp h
      rw [List.append_assoc, List.cons_append, run_append_mark missing,
        contract_append contracted, Option.bind_some]
      simpa only [List.append_assoc, List.cons_append] using ih before e after' contracted rest

/-- A pass does not reach across an operator that is not its subject. -/
theorem run_append_operator {op : Operator} (ne : pass.mark ≠ .operator op) (xs ys : List Item) :
    pass.run (xs ++ .operator op :: ys) =
      (pass.run xs).bind fun xs => (pass.run ys).map fun ys => xs ++ .operator op :: ys := by
  induction xs using run_induction pass with
  | absent xs missing =>
      rw [run_of_not_mem missing, Option.bind_some]
      have missing_left {front : List Item} (h : pass.mark ∉ front) :
          pass.mark ∉ xs ++ .operator op :: front := by simp [missing, ne, h]
      induction ys using run_induction pass with
      | absent ys absent => rw [run_of_not_mem absent, run_of_not_mem (missing_left absent)]; rfl
      | leftmost front after absent ih =>
          have whole : xs ++ .operator op :: (front ++ pass.mark :: after) =
            (xs ++ .operator op :: front) ++ pass.mark :: after := by simp
          rw [whole, run_append_mark (missing_left absent), run_append_mark absent,
            List.reverse_append, List.reverse_cons, List.append_assoc, List.singleton_append,
            contract_operator_append]
          cases contracted : pass.contract front.reverse after with
          | none => rfl
          | some answer =>
              obtain ⟨before, e, after'⟩ := answer
              simpa using ih before e after' contracted
  | leftmost front after missing ih =>
      rw [List.append_assoc, List.cons_append, run_append_mark missing, run_append_mark missing,
        contract_append_operator]
      cases contracted : pass.contract front.reverse after with
      | none => rfl
      | some answer =>
          obtain ⟨before, e, after'⟩ := answer
          simpa using ih before e after' contracted

end Pass

/-- Makes one pass after the other. -/
def runAll (passes : List Pass) (items : List Item) : Option (List Item) :=
  passes.foldlM (fun items pass => pass.run items) items

/-- The passes over a group: the functions in the order of their ranks, then the
operators from the strongest to the weakest. -/
def passes (functions : List String) : List Pass :=
  functions.map .call ++ Operator.all.map .operate

/-- Reduces a list without groups to its only value. -/
def reduceGroup (functions : List String) (items : List Item) : Option Expr :=
  match runAll (passes functions) items with
  | some [.value e] => some e
  | _ => none

/-- Reduces a list. The parenthesis that closes first ends an innermost group, which
begins at the nearest opening parenthesis before it. Without a closing parenthesis
no group is left. -/
def reduce (functions : List String) (items : List Item) : Option Expr :=
  match _closed : splitAt? .closing items with
  | none => reduceGroup functions items
  | some (front, after) =>
    match _opened : splitAt? .opening front with
    | none => none
    | some (inside, before) => do
      let e ← reduceGroup functions inside
      reduce functions (before.reverse ++ .value e :: after)
termination_by items.length
decreasing_by
  obtain ⟨rfl, -⟩ := splitAt?_eq_some_iff.mp _closed
  obtain ⟨rfl, -⟩ := splitAt?_eq_some_iff.mp _opened
  simp only [List.length_append, List.length_cons, List.length_reverse]
  omega

theorem runAll_cons (pass : Pass) (passes : List Pass) (items : List Item) :
    runAll (pass :: passes) items = (pass.run items).bind (runAll passes) := rfl

theorem runAll_append (first second : List Pass) (items : List Item) :
    runAll (first ++ second) items = (runAll first items).bind (runAll second) :=
  List.foldlM_append

theorem runAll_of_not_mem {passes : List Pass} {items : List Item}
    (absent : ∀ pass ∈ passes, pass.mark ∉ items) : runAll passes items = some items := by
  induction passes with
  | nil => rfl
  | cons pass passes ih =>
      have first := Pass.run_of_not_mem (absent pass List.mem_cons_self)
      rw [runAll_cons, first, Option.bind_some]
      exact ih fun other mem => absent other (List.mem_cons_of_mem _ mem)

/-- A value alone is the subject of no pass. -/
@[simp] theorem runAll_value (passes : List Pass) (e : Expr) :
    runAll passes [.value e] = some [.value e] := by
  apply runAll_of_not_mem
  intro pass _ mem
  cases pass <;> cases List.mem_singleton.mp mem

theorem runAll_append_operator {passes : List Pass} {op : Operator}
    (ne : ∀ pass ∈ passes, pass.mark ≠ .operator op) (xs ys : List Item) :
    runAll passes (xs ++ .operator op :: ys) =
      (runAll passes xs).bind fun xs =>
        (runAll passes ys).map fun ys => xs ++ .operator op :: ys := by
  induction passes generalizing xs ys with
  | nil => rfl
  | cons pass passes ih =>
      have rest := ih fun other mem => ne other (List.mem_cons_of_mem _ mem)
      simp only [runAll_cons, Pass.run_append_operator (ne pass List.mem_cons_self)]
      cases pass.run xs with
      | none => rfl
      | some xs =>
          cases pass.run ys with
          | none => simp
          | some ys => exact rest xs ys

theorem reduceGroup_eq_some_iff {functions : List String} {items : List Item} {e : Expr} :
    reduceGroup functions items = some e ↔ runAll (passes functions) items = some [.value e] := by
  rw [reduceGroup]
  split
  · rename_i only
    rw [only]
    simp
  · rename_i notOne
    constructor
    · intro h
      cases h
    · intro h
      exact (notOne e h).elim

theorem reduce_eq (functions : List String) (items : List Item) :
    reduce functions items =
      match splitAt? .closing items with
      | none => reduceGroup functions items
      | some (front, after) =>
        match splitAt? .opening front with
        | none => none
        | some (inside, before) => (reduceGroup functions inside).bind fun e =>
            reduce functions (before.reverse ++ .value e :: after) := by
  rw [reduce]
  split
  · rename_i closed
    rw [closed]
  · rename_i closed
    rw [closed]
    split
    · rename_i opened
      simp [opened]
    · rename_i opened
      simp [opened]

theorem reduce_of_not_mem {functions : List String} {items : List Item}
    (absent : .closing ∉ items) : reduce functions items = reduceGroup functions items := by
  rw [reduce_eq, splitAt?_eq_none_iff.mpr absent]

/-- A closing parenthesis without an opening one before it is not accepted. -/
theorem reduce_unopened {functions : List String} {front : List Item} (after : List Item)
    (flat : .closing ∉ front) (unopened : .opening ∉ front) :
    reduce functions (front ++ .closing :: after) = none := by
  have opened : splitAt? .opening front.reverse = none :=
    splitAt?_eq_none_iff.mpr fun mem => unopened (List.mem_reverse.mp mem)
  simp only [reduce_eq, splitAt?_append_mark flat after, opened]

/-- The group that closes first gives way to its value. -/
theorem reduce_group {functions : List String} {before inside : List Item} (after : List Item)
    (flatBefore : .closing ∉ before) (flatInside : .opening ∉ inside ∧ .closing ∉ inside) :
    reduce functions (before ++ .opening :: (inside ++ .closing :: after)) =
      (reduceGroup functions inside).bind fun e =>
        reduce functions (before ++ .value e :: after) := by
  have closed : splitAt? .closing (before ++ .opening :: (inside ++ .closing :: after)) =
      some (inside.reverse ++ .opening :: before.reverse, after) := by
    have absent : .closing ∉ before ++ .opening :: inside := by simp [flatBefore, flatInside.2]
    simpa using splitAt?_append_mark absent after
  have opened : splitAt? .opening (inside.reverse ++ .opening :: before.reverse) =
      some (inside, before.reverse) := by
    have absent : .opening ∉ inside.reverse := by simpa using flatInside.1
    simpa using splitAt?_append_mark absent before.reverse
  rw [reduce_eq, closed]
  simp only [opened, List.reverse_reverse]

end SeriesCalculator.Splicing
