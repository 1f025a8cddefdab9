import Mathlib.Data.List.Nodup
import Mathlib.Logic.Relation
import SeriesCalculator.Proofs.Environment.KnownNames
import SeriesCalculator.Proofs.Session.Definitions

/-!
# The table of functions only grows

A function stays under its name and at its rank once it is entered, whatever a session is told
afterwards. One table continues another (`FunctionTable.Continues`) if it begins with all of its
entries and no name has come in twice. The tables after commands continue those before them; the
induction is the one over nested commands of `Definitions.after`, where a binding passes on what its
inner commands have entered.

The steps of a session (`Environment.Step`) are its commands, and also the changes that a command
makes on the way, where a binding or a call begins or ends. So what is said of all steps holds in
the middle of a command, too.
-/

namespace SeriesCalculator

namespace FunctionTable

variable {t t' t'' : FunctionTable}

/-- Where every name is entered once, the first place with a name is the only one. -/
theorem rank?_eq_some_iff (distinct : t.names.Nodup) {name : String} {rank : Nat} :
    t.rank? name = some rank ↔ t.names[rank]? = some name := by
  have first : t.rank? name = t.names.findIdx? (· == name) := by
    rw [rank?, names, List.findIdx?_map]
    rfl
  rw [first, List.findIdx?_eq_some_iff_getElem, List.getElem?_eq_some_iff]
  constructor
  · rintro ⟨bound, same, -⟩
    exact ⟨bound, beq_iff_eq.mp same⟩
  · rintro ⟨bound, same⟩
    refine ⟨bound, beq_iff_eq.mpr same, ?_⟩
    intro earlier before found
    have again : t.names[earlier] = t.names[rank] := (beq_iff_eq.mp found).trans same.symm
    have : earlier = rank := (List.Nodup.getElem_inj_iff distinct).mp again
    omega

/-- The second table begins with the first one and enters no name twice. -/
structure Continues (t t' : FunctionTable) : Prop where
  entries : t.entries <+: t'.entries
  distinct : t.names.Nodup → t'.names.Nodup

namespace Continues

theorem refl (t : FunctionTable) : t.Continues t where
  entries := List.prefix_refl t.entries
  distinct := id

theorem trans (first : t.Continues t') (second : t'.Continues t'') : t.Continues t'' where
  entries := first.entries.trans second.entries
  distinct := second.distinct ∘ first.distinct

/-- A name may be entered if it is free. -/
theorem push {name : String} (free : name ∉ t.names) (function : Function) :
    t.Continues (t.push name function) where
  entries := List.prefix_append _ _
  distinct := by
    intro distinct
    rw [names_push, List.nodup_append_comm]
    exact List.nodup_cons.mpr ⟨free, distinct⟩

/-- What has a rank keeps it. -/
theorem getElem?_eq (h : t.Continues t') {rank : Nat} {entry : String × Function}
    (entered : t.entries[rank]? = some entry) : t'.entries[rank]? = some entry := by
  obtain ⟨bound, rfl⟩ := List.getElem?_eq_some_iff.mp entered
  exact List.prefix_iff_getElem?.mp h.entries rank bound

theorem rank?_eq (h : t.Continues t') (distinct : t.names.Nodup) {name : String} {rank : Nat}
    (given : t.rank? name = some rank) : t'.rank? name = some rank := by
  have longer : t.names <+: t'.names := h.entries.map Prod.fst
  rw [rank?_eq_some_iff distinct] at given
  rw [rank?_eq_some_iff (h.distinct distinct)]
  obtain ⟨bound, rfl⟩ := List.getElem?_eq_some_iff.mp given
  exact List.prefix_iff_getElem?.mp longer rank bound

end Continues

end FunctionTable

namespace Definitions

theorem continues_define (d : Definitions) (name body parameter : String) :
    d.functions.Continues (d.define name body parameter).functions := by
  rw [define]
  split
  · exact .refl d.functions
  · rename_i free
    rw [FunctionTable.contains_iff_mem_names] at free
    exact .push free _

mutual

theorem continues_after : (command : Command) → (d : Definitions) →
    d.functions.Continues (d.after command).functions
  | .defineFunction name body parameter, d => d.continues_define name body parameter
  | .bind name value inner _, d => continues_afterAll inner (d.assign name (some value))
  | .setVariable _ _, d | .removeVariable _, d | .change _, d
  | .evaluate _, d | .explain _, d | .stages _, d | .tokenize _ _, d | .withProducts _, d
  | .reversePolish _, d | .evaluatePolish _, d | .apply _ _, d | .operate _ _ _, d
  | .describe _, d | .knownNames, d | .summary, d | .derivative _ _ _ _, d
  | .integral _ _ _ _ _, d => .refl d.functions

theorem continues_afterAll : (commands : List Command) → (d : Definitions) →
    d.functions.Continues (d.afterAll commands).functions
  | [], d => .refl d.functions
  | command :: commands, d =>
    (continues_after command d).trans (continues_afterAll commands (d.after command))

end

end Definitions

namespace Environment

/-- The steps of a session, from outside and from inside of its commands. -/
inductive Step (env : Environment) : Environment → Prop
  /-- A command is carried out, with all that is in it. -/
  | command (command : Command) : Step env (command.run.run env).2
  /-- A function of any kind is entered under a free name. -/
  | register {name : String} (free : name ∉ env.functions.names) (function : Function) :
      Step env { env with functions := env.functions.push name function }
  /-- A binding begins, or the name gets back what it had. -/
  | binding (name : String) (value? : Option Float) :
      Step env { env with bindings := env.bindings.set name value? }
  /-- A call of a defined function begins or ends. -/
  | call (depth : Nat) : Step env { env with depth := depth }

/-- Any number of steps. -/
abbrev Steps : Environment → Environment → Prop :=
  Relation.ReflTransGen Step

variable {env later : Environment}

theorem Step.continues (step : Step env later) : env.functions.Continues later.functions := by
  cases step with
  | command command =>
      obtain ⟨defined, -⟩ := Command.definitions_run command env
      have table : (command.run.run env).2.functions = (env.definitions.after command).functions :=
        congrArg Definitions.functions defined
      rw [table]
      exact Definitions.continues_after command env.definitions
  | register free function => exact .push free function
  | binding name value? => exact .refl env.functions
  | call depth => exact .refl env.functions

theorem Steps.continues (steps : Steps env later) : env.functions.Continues later.functions := by
  induction steps with
  | refl => exact .refl env.functions
  | tail _ step ih => exact ih.trans step.continues

/-- The commands of a session are steps one after the other. -/
theorem steps_runAll (commands : List Command) (env : Environment) :
    Steps env ((Command.runAll commands).run env).2 := by
  induction commands generalizing env with
  | nil => exact .refl
  | cons command commands ih => exact .head (.command command) (ih (command.run.run env).2)

/-- A binding takes steps to its inner commands, and more steps from there to its end. -/
theorem steps_bind (name : String) (value : Float) (inner : List Command) (failure : Option String)
    (env : Environment) :
    let inside := ((Command.runAll inner).run (env.setVariable name value)).2
    Steps env inside ∧ Steps inside ((Command.bind name value inner failure).run.run env).2 := by
  intro inside
  have begins : Step env (env.setVariable name value) := .binding name (some value)
  refine ⟨.head begins (steps_runAll inner _), ?_⟩
  rw [Command.snd_run_bind]
  exact .single (.binding name _)

/-- Wherever a session is, its functions have distinct names, and all of them stay what they are and
where they are: a name has the rank at which it stands, now and after any further steps, and the
built-in functions have the first ranks. A definition is refused exactly if its name is that of a
function; otherwise the function comes after all others. -/
theorem functions_append_only {settings : Settings} {env : Environment}
    (reached : Steps (initial settings) env) :
    env.functions.names.Nodup ∧
    (∀ later, Steps env later →
      env.functions.entries <+: later.functions.entries ∧
      ∀ name rank, env.functions.rank? name = some rank →
        later.functions.rank? name = some rank) ∧
    (∀ rank function, Builtin.all[rank]? = some function →
      env.functions.entries[rank]? = some (function.name, .builtin function) ∧
      env.functions.rank? function.name = some rank) ∧
    (∀ name body parameter,
      (Command.defineFunction name body parameter).run.run env =
        if name ∈ env.functions.names then (.done (.error (.nameTaken name)), env)
        else (.done (.ok ()),
          { env with functions := env.functions.push name (.defined body parameter) })) ∧
    (∀ name rank,
      env.functions.rank? name = some rank ↔ env.functions.names[rank]? = some name) := by
  have continues : FunctionTable.builtins.Continues env.functions := reached.continues
  have distinct : env.functions.names.Nodup := continues.distinct (by decide)
  refine ⟨distinct, ?_, ?_, ?_, ?_⟩
  · intro later steps
    refine ⟨steps.continues.entries, ?_⟩
    intro name rank given
    exact steps.continues.rank?_eq distinct given
  · intro rank function ranked
    have entered : env.functions.entries[rank]? = some (function.name, .builtin function) := by
      apply continues.getElem?_eq
      rw [FunctionTable.builtins, List.getElem?_map, ranked]
      rfl
    refine ⟨entered, (FunctionTable.rank?_eq_some_iff distinct).mpr ?_⟩
    rw [FunctionTable.names, List.getElem?_map, entered]
    rfl
  · intro name body parameter
    simpa only [FunctionTable.contains_iff_mem_names] using
      Command.run_defineFunction name body parameter env
  · intro name rank
    exact FunctionTable.rank?_eq_some_iff distinct

/-- A function that is defined while a variable is bound has a rank at once, and neither the end of
the binding nor anything that comes later takes it away. The sine cannot be defined anew. -/
theorem functions_append_only_double :
    let inner : List Command := [.defineFunction "double" "2*t" "t"]
    let inside := ((Command.runAll inner).run ((initial .default).setVariable "t" 2.0)).2
    let final := ((Command.bind "t" 2.0 inner none).run.run (initial .default)).2
    Steps (initial .default) inside ∧
      inside.functions.rank? "double" = some 10 ∧
      (∀ commands, ((Command.runAll commands).run final).2.functions.rank? "double" = some 10) ∧
      (Command.defineFunction "sin" "t" "t").run.run inside =
        (.done (.error (.nameTaken "sin")), inside) := by
  intro inner inside final
  obtain ⟨reached, ends⟩ := steps_bind "t" 2.0 inner none (initial .default)
  obtain ⟨-, kept, -, defining, ranks⟩ := functions_append_only reached
  have given : inside.functions.rank? "double" = some 10 :=
    (ranks "double" 10).mpr (by decide +kernel)
  refine ⟨reached, given, ?_, ?_⟩
  · intro commands
    exact (kept _ (ends.trans (steps_runAll commands final))).2 "double" 10 given
  · have taken : "sin" ∈ inside.functions.names := by decide +kernel
    exact (defining "sin" "t" "t").trans (if_pos taken)

end Environment

end SeriesCalculator
