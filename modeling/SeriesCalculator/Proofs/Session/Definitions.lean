import SeriesCalculator.Proofs.Evaluation.Explanation
import SeriesCalculator.Session

/-!
# What a session defines

Of all that a session can be told, only a few commands define something: they give a value to a
variable or take it away, enter a function, or change the settings. `Definitions.after` interprets
these and passes over all others, and it knows nothing of calculations, of calls under way, or of
the way in which bindings are kept. A binding for a while gives the variable its value, lets the
inner commands define what they like, and then resets this one name to what it was before.

`definitions_run` says that commands do define this and nothing else, and leave no call under way.
The induction is on the commands, with those inside of a binding as a list of their own.
-/

namespace SeriesCalculator

/-- The values of all names, the functions and the settings. -/
structure Definitions where
  value? : String → Option Float
  functions : FunctionTable
  settings : Settings

namespace Definitions

/-- Gives a name a value, or none. -/
def assign (d : Definitions) (name : String) (value? : Option Float) : Definitions :=
  { d with value? := fun other => if other = name then value? else d.value? other }

/-- Enters a function, unless the name is that of one already. -/
def define (d : Definitions) (name body parameter : String) : Definitions :=
  if d.functions.contains name then d
  else { d with functions := d.functions.push name (.defined body parameter) }

mutual

/-- What is defined after a command. A command that calculates or shows something defines
nothing. -/
def after (d : Definitions) : Command → Definitions
  | .setVariable name value => d.assign name (some value)
  | .removeVariable name => d.assign name none
  | .defineFunction name body parameter => d.define name body parameter
  | .change wish => { d with settings := d.settings.update wish }
  | .bind name value inner _ =>
    ((d.assign name (some value)).afterAll inner).assign name (d.value? name)
  | _ => d

/-- What is defined after commands in their order. -/
def afterAll (d : Definitions) : List Command → Definitions
  | [] => d
  | command :: commands => (d.after command).afterAll commands

end

end Definitions

namespace Environment

/-- What is defined in an environment. -/
def definitions (env : Environment) : Definitions where
  value? := env.bindings.get?
  functions := env.functions
  settings := env.settings

/-- Apart from the count of calls an environment consists of its definitions. -/
theorem ext_definitions {env env' : Environment} (same : env.definitions = env'.definitions)
    (calls : env.depth = env'.depth) : env = env' := by
  obtain ⟨bindings, functions, settings, depth⟩ := env
  obtain ⟨bindings', functions', settings', depth'⟩ := env'
  obtain ⟨values, rfl, rfl⟩ := Definitions.mk.inj same
  obtain rfl : bindings = bindings' := Bindings.ext_get? fun name => congrFun values name
  obtain rfl : depth = depth' := calls
  rfl

theorem definitions_set (env : Environment) (name : String) (value? : Option Float) :
    { env with bindings := env.bindings.set name value? }.definitions =
      env.definitions.assign name value? := by
  simp only [definitions, Definitions.assign, Definitions.mk.injEq, and_true]
  funext other
  exact env.bindings.get?_set name value? other

end Environment

namespace Command

open Calculation

/-- Tells whether a command defines something, or may do so. -/
def defines : Command → Bool
  | setVariable .. | removeVariable .. | defineFunction .. | change .. | bind .. => true
  | _ => false

/-- All other commands leave the environment alone. -/
theorem snd_run_of_defines_eq_false {command : Command} (h : command.defines = false)
    (env : Environment) : (command.run.run env).2 = env := by
  cases command with
  | evaluate text => exact preserving_evaluate text env
  | explain text => exact preserving_explain text env
  | stages text =>
      obtain ⟨steps, run, -⟩ := Environment.run_stages env text
      exact congrArg Prod.snd run
  | tokenize text names => cases names <;> rfl
  | withProducts tokens => rfl
  | reversePolish tokens => rfl
  | evaluatePolish tokens =>
      change ((evaluateTokens tokens).run env).2 = env
      simp only [evaluateTokens, StateT.run_bind, StateT.run_get, pure_bind]
      cases env.treeOf tokens with
      | ok tree => exact preserving_evaluateTree tree env
      | error fault => rfl
  | apply function x => exact preserving_apply function x env
  | operate op left right => rfl
  | describe name => rfl
  | knownNames => rfl
  | summary => rfl
  | derivative text name point step =>
      cases step with
      | none =>
          exact Preserving.get_bind (fun _ => preserving_derivativeWith text name point _) env
      | some step => exact preserving_derivativeWith text name point step env
  | integral text name a b intervals =>
      cases intervals with
      | none => exact Preserving.get_bind (fun _ => preserving_integralWith text name a b _) env
      | some intervals => exact preserving_integralWith text name a b intervals env
  | setVariable name value => cases h
  | removeVariable name => cases h
  | defineFunction name body parameter => cases h
  | change wish => cases h
  | bind name value inner failure => cases h

/-- The definition of a function is refused if the name is that of one already. -/
theorem run_defineFunction (name body parameter : String) (env : Environment) :
    (defineFunction name body parameter).run.run env =
      if env.functions.contains name then (.done (.error (.nameTaken name)), env)
      else (.done (.ok ()),
        { env with functions := env.functions.push name (.defined body parameter) }) := by
  change (define name body parameter).run env = _
  simp only [define, Environment.defineFunction, StateT.run_bind, StateT.run_get, pure_bind]
  cases env.functions.contains name with
  | true => rfl
  | false => rfl

theorem snd_run_bind (name : String) (value : Float) (inner : List Command)
    (failure : Option String) (env : Environment) :
    ((bind name value inner failure).run.run env).2 =
      let inside := ((runAll inner).run (env.setVariable name value)).2
      { inside with bindings := inside.bindings.set name (env.bindings.get? name) } := by
  cases failure <;> rfl

theorem snd_runAll_append (before behind : List Command) (env : Environment) :
    ((runAll (before ++ behind)).run env).2 =
      ((runAll behind).run ((runAll before).run env).2).2 := by
  induction before generalizing env with
  | nil => rfl
  | cons command before ih => exact ih (command.run.run env).2

mutual

theorem definitions_run : (command : Command) → (env : Environment) →
    (command.run.run env).2.definitions = env.definitions.after command ∧
      (command.run.run env).2.depth = env.depth
  | .setVariable name value, env => ⟨env.definitions_set name (some value), rfl⟩
  | .removeVariable name, env => ⟨env.definitions_set name none, rfl⟩
  | .defineFunction name body parameter, env => by
      rw [run_defineFunction, Definitions.after, Definitions.define]
      change _ = (if env.functions.contains name then _ else _) ∧ _
      cases env.functions.contains name with
      | true => exact ⟨rfl, rfl⟩
      | false => exact ⟨rfl, rfl⟩
  | .change wish, env => ⟨rfl, rfl⟩
  | .bind name value inner failure, env => by
      obtain ⟨inside, calls⟩ := definitions_runAll inner (env.setVariable name value)
      have entered : (env.setVariable name value).definitions =
          env.definitions.assign name (some value) :=
        env.definitions_set name (some value)
      rw [snd_run_bind]
      refine ⟨?_, calls⟩
      dsimp only
      rw [Environment.definitions_set, inside, entered]
      rfl
  | .evaluate _, env | .explain _, env | .stages _, env | .tokenize _ _, env
  | .withProducts _, env | .reversePolish _, env | .evaluatePolish _, env | .apply _ _, env
  | .operate _ _ _, env | .describe _, env | .knownNames, env | .summary, env
  | .derivative _ _ _ _, env | .integral _ _ _ _ _, env => by
      rw [snd_run_of_defines_eq_false rfl]
      exact ⟨rfl, rfl⟩

/-- Commands one after the other define what their interpretation says, and no call is under way
at the end that was not at the beginning. -/
theorem definitions_runAll : (commands : List Command) → (env : Environment) →
    ((runAll commands).run env).2.definitions = env.definitions.afterAll commands ∧
      ((runAll commands).run env).2.depth = env.depth
  | [], env => ⟨rfl, rfl⟩
  | command :: commands, env => by
      obtain ⟨defined, calls⟩ := definitions_run command env
      obtain ⟨definedAll, callsAll⟩ := definitions_runAll commands (command.run.run env).2
      rw [defined] at definedAll
      exact ⟨definedAll, callsAll.trans calls⟩

end

end Command

namespace Environment

/-- A session ends in the one environment that has what the commands define, and after each of its
commands no call is under way. -/
theorem runAll_defines (env : Environment) (commands : List Command) :
    (∀ final, ((Command.runAll commands).run env).2 = final ↔
      final.definitions = env.definitions.afterAll commands ∧ final.depth = env.depth) ∧
    (env.depth = 0 → ∀ before behind, commands = before ++ behind →
      let between := ((Command.runAll before).run env).2
      ((Command.runAll commands).run env).2 = ((Command.runAll behind).run between).2 ∧
        between.definitions = env.definitions.afterAll before ∧ between.depth = 0) := by
  constructor
  · intro final
    obtain ⟨defined, calls⟩ := Command.definitions_runAll commands env
    constructor
    · rintro rfl
      exact ⟨defined, calls⟩
    · rintro ⟨same, depth⟩
      exact ext_definitions (defined.trans same.symm) (calls.trans depth.symm)
  · rintro fresh before behind rfl
    obtain ⟨defined, calls⟩ := Command.definitions_runAll before env
    exact ⟨Command.snd_runAll_append before behind env, defined, calls.trans fresh⟩

/-- A bound name may be taken away and bound again inside of its binding, and is free at the end.
What the inner commands define besides remains, also where a failure is reported. -/
theorem runAll_defines_rebound :
    let inner : List Command :=
      [.removeVariable "t", .bind "t" 3.0 [.defineFunction "double" "2*t" "t"] (some "refused")]
    let commands : List Command := [.bind "t" 2.0 inner none, .evaluate "double 4"]
    let final := ((Command.runAll commands).run (initial .default)).2
    (initial .default).depth = 0 ∧ final.depth = 0 ∧ final.bindings.get? "t" = none ∧
      final.functions = FunctionTable.builtins.push "double" (.defined "2*t" "t") := by
  intro inner commands final
  have fresh : (initial .default).depth = 0 := rfl
  obtain ⟨determined, steps⟩ := runAll_defines (initial .default) commands
  obtain ⟨defined, -⟩ := (determined final).mp rfl
  obtain ⟨-, -, calls⟩ := steps fresh commands [] (List.append_nil commands).symm
  refine ⟨fresh, calls, ?_, ?_⟩
  · exact congrFun (congrArg Definitions.value? defined) "t"
  · exact congrArg Definitions.functions defined

end Environment

end SeriesCalculator
