import SeriesCalculator.Proofs.Evaluation.Answer
import SeriesCalculator.Proofs.Reading.Faults

/-!
# Recursion has no value

An expression knows no choice: its value is computed from the values of all of its parts, so that a
tree has a value only if every call in it has one (`exists_answer_apply_of_calls`). Functions whose
texts always call one of these functions again can therefore have a value only if one of them has a
value with one more call under way. The limit on calls puts an end to this, and the end is an error.

Which calls a text makes depends on what is bound when it is read, since a longer name can swallow
the name of a function. So the functions come with the names that may be bound, and the parameters
of the functions are among them.
-/

namespace SeriesCalculator

namespace Expr

/-- A function is called in a tree. -/
def Calls (name : String) : Expr → Prop
  | number _ => False
  | «variable» _ => False
  | call function argument => function = name ∨ argument.Calls name
  | binary _ left right => left.Calls name ∨ right.Calls name

/-- One of these functions is called in a tree. -/
def CallsAny (looping : String → Prop) (e : Expr) : Prop :=
  ∃ name, looping name ∧ e.Calls name

end Expr

namespace Calculation

/-- In a tree that has a value, every function that is called returns one. -/
theorem exists_answer_apply_of_calls {env : Environment} {e : Expr} {name : String} {value : Float}
    (h : answer (evaluateTree e) env = .ok value) (calls : e.Calls name) :
    ∃ x y, answer (apply name x) env = .ok y := by
  induction e generalizing value with
  | number _ => exact calls.elim
  | «variable» _ => exact calls.elim
  | call function argument ih =>
      rw [answer_evaluateTree_call] at h
      obtain ⟨x, inner, applied⟩ := bind_eq_ok_iff.mp h
      rcases calls with rfl | deeper
      · exact ⟨x, value, applied⟩
      · exact ih inner deeper
  | binary op left right ihLeft ihRight =>
      rw [answer_evaluateTree_binary] at h
      obtain ⟨a, first, h⟩ := bind_eq_ok_iff.mp h
      obtain ⟨b, second, -⟩ := bind_eq_ok_iff.mp h
      rcases calls with inLeft | inRight
      · exact ihLeft first inLeft
      · exact ihRight second inRight

end Calculation

namespace Environment

/-- No other names are bound. -/
def BindsOnly (bindable : String → Prop) (env : Environment) : Prop :=
  ∀ name, env.bindings.contains name = true → bindable name

theorem BindsOnly.enter {bindable : String → Prop} {env : Environment} (h : env.BindsOnly bindable)
    {parameter : String} (allowed : bindable parameter) (x : Float) :
    (env.enter parameter x).BindsOnly bindable := by
  intro name bound
  rw [Bindings.contains, Environment.enter, Bindings.get?_insert] at bound
  split at bound
  · next same => exact same ▸ allowed
  · exact h name bound

end Environment

/-- The looping functions are defined by texts, and whatever is bound of the names that may be
bound, such a text cannot be read, or there is a call of a looping function in it. -/
def FunctionTable.Recursive (functions : FunctionTable) (bindable looping : String → Prop) : Prop :=
  ∀ name, looping name → ∃ body parameter,
    functions.find? name = some (.defined body parameter) ∧ bindable parameter ∧
    ∀ env : Environment, env.functions = functions → env.BindsOnly bindable →
      ∀ reading, env.read body = .ok reading → reading.tree.CallsAny looping

namespace Environment

open Calculation

variable {env : Environment} {bindable looping : String → Prop}

/-- The text of the function calls a looping function in its turn, with fewer calls left. -/
theorem answer_apply_ne_ok_of_recursive (recursive : env.functions.Recursive bindable looping)
    (binds : env.BindsOnly bindable) {name : String} (loops : looping name) (x y : Float) :
    (apply name x).answer env ≠ .ok y := by
  induction left : env.callsLeft using Nat.strongRecOn generalizing env name x y with
  | ind calls ih =>
      intro returned
      obtain ⟨body, parameter, found, allowed, again⟩ := recursive name loops
      rw [answer_apply_defined env found] at returned
      obtain ⟨_, admitted, evaluated⟩ := bind_eq_ok_iff.mp returned
      rw [answer_evaluate] at evaluated
      obtain ⟨reading, read, value⟩ := bind_eq_ok_iff.mp evaluated
      have inside : (env.enter parameter x).BindsOnly bindable := binds.enter allowed x
      obtain ⟨callee, loops, calls⟩ :=
        again (env.enter parameter x) rfl inside reading (of_mapError_eq_ok read)
      obtain ⟨x', y', returned⟩ := exists_answer_apply_of_calls value calls
      have more := admitCall_eq_ok_iff.mp admitted
      have fewer : (env.enter parameter x).callsLeft < env.callsLeft := by
        rw [env.callsLeft_enter]
        omega
      have same : (env.enter parameter x).functions.Recursive bindable looping := recursive
      exact ih _ (left ▸ fewer) same inside loops x' y' rfl returned

/-- A text that calls a looping function ends in an error, whatever is bound, however many calls are
under way, and whatever the limit is. The bindings are arbitrary if every name may be bound; the
functions must then loop under all bindings. -/
theorem evaluate_recursive_fails (recursive : env.functions.Recursive bindable looping)
    (binds : env.BindsOnly bindable) {text : String} {reading : Reading}
    (read : env.read text = .ok reading) (calls : reading.tree.CallsAny looping) :
    ∃ error, (evaluate text).run.run env = (.error error, env) := by
  obtain ⟨name, loops, calls⟩ := calls
  rw [run_eq_answer env (preserving_evaluate text), answer_evaluate, read]
  change ∃ error, (answer (evaluateTree reading.tree) env, env) = _
  cases result : answer (evaluateTree reading.tree) env with
  | error error => exact ⟨error, rfl⟩
  | ok value =>
      obtain ⟨x, y, returned⟩ := exists_answer_apply_of_calls result calls
      exact absurd returned (answer_apply_ne_ok_of_recursive recursive binds loops x y)

/-- Two functions that call each other. Nothing that is bound stands in their texts. -/
theorem evaluate_recursive_fails_mutual :
    let functions := (FunctionTable.builtins.push "f" (.defined "g(2)+1" "t")).push "g"
      (.defined "1-f(3)" "t")
    let env : Environment := { initial .default with functions }
    ∃ error, (evaluate "f(2)").run.run env = (.error error, env) := by
  intro functions env
  have tokens (text : List Char) : env.tokenize text = Token.ofChars
      ["cosec", "sin", "cos", "tan", "sec", "csc", "cot", "abs", "exp", "pi", "ln", "e", "f", "g"]
      text :=
    tokenize_eq_ofChars _ (by decide +kernel) (by decide +kernel) text
  have binds : env.BindsOnly (· ∈ ["e", "pi", "t"]) := by
    intro name bound
    have mem : name ∈ ["e", "pi"] := Bindings.contains_iff_mem_names.mp bound
    exact List.mem_append_left ["t"] mem
  have alike {other : Environment} (same : other.functions = functions)
      (only : other.BindsOnly (· ∈ ["e", "pi", "t"])) {text : String}
      (free : ∀ name ∈ ["e", "pi", "t"], ¬ name.toList <:+: text.toList) :
      other.read text = env.read text := by
    apply read_congr_bindings same
    intro name within
    have unbound {b : Environment} (only : b.BindsOnly (· ∈ ["e", "pi", "t"])) :
        b.bindings.contains name = false :=
      Bool.eq_false_iff.mpr fun bound => free name (only name bound) within
    rw [unbound only, unbound binds]
  have readF : (env.read "g(2)+1").map Reading.tree =
      .ok (.binary .add (.call "g" (.number 2)) (.number 1)) := by
    rw [Environment.read, tokens]
    decide +kernel
  have readG : (env.read "1-f(3)").map Reading.tree =
      .ok (.binary .subtract (.number 1) (.call "f" (.number 3))) := by
    rw [Environment.read, tokens]
    decide +kernel
  have recursive : functions.Recursive (· ∈ ["e", "pi", "t"]) (· ∈ ["f", "g"]) := by
    intro name loops
    obtain rfl | rfl : name = "f" ∨ name = "g" := by simpa using loops
    · refine ⟨"g(2)+1", "t", by decide +kernel, by decide, ?_⟩
      intro other same only reading read
      rw [← alike same only (by decide +kernel), read] at readF
      exact ⟨"g", by decide, Except.ok.inj readF ▸ .inl (.inl rfl)⟩
    · refine ⟨"1-f(3)", "t", by decide +kernel, by decide, ?_⟩
      intro other same only reading read
      rw [← alike same only (by decide +kernel), read] at readG
      exact ⟨"f", by decide, Except.ok.inj readG ▸ .inr (.inl rfl)⟩
  have read : env.read "f(2)" = .ok
      { tokens := [.name "f", .opening, .number 2, .closing]
        products := [.name "f", .opening, .number 2, .closing]
        polish := [.number 2, .name "f"]
        tree := .call "f" (.number 2) } := by
    rw [Environment.read, tokens]
    decide +kernel
  exact evaluate_recursive_fails recursive binds read ⟨"f", by decide, .inl rfl⟩

end Environment

end SeriesCalculator
