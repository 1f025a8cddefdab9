import SeriesCalculator.Proofs.Evaluation.Simulation
import SeriesCalculator.Proofs.Reading.Names

/-!
# Names that are not mentioned

A name that stands neither in a text nor in the text of any defined function has no influence on
the evaluation of the text, whatever it is defined as. Such a definition changes the list of names
that are tried at every place of every text, but the name fits at no place. It may be the name of
a parameter: then it is bound and restored by calls, and the text of the function does not look.
-/

namespace SeriesCalculator

/-- The text of a function that is defined by one. -/
def Function.body? : Function → Option String
  | builtin _ => none
  | defined body _ => some body

namespace FunctionTable

/-- The texts of the defined functions. -/
def bodies (t : FunctionTable) : List String :=
  t.entries.filterMap fun entry => entry.2.body?

theorem mem_bodies_of_find? {t : FunctionTable} {name body parameter : String}
    (found : t.find? name = some (.defined body parameter)) : body ∈ t.bodies := by
  obtain ⟨before, behind, entries, -⟩ := List.lookup_eq_some_iff.mp found
  refine List.mem_filterMap.mpr ⟨(name, .defined body parameter), ?_, rfl⟩
  simp [entries]

variable {t : FunctionTable} {name other : String} {function : Function}

theorem find?_push_of_ne (ne : other ≠ name) :
    (t.push name function).find? other = t.find? other := by
  have differs : (other == name) = false := by simpa using ne
  simp [find?, push, List.lookup_append, List.lookup_cons, differs]

theorem rank?_push_of_ne (ne : other ≠ name) :
    (t.push name function).rank? other = t.rank? other := by
  simp [rank?, push, List.findIdx?_append, List.findIdx?_cons, Ne.symm ne]

end FunctionTable

namespace Environment

/-- Environments that differ only in what one name stands for. The texts of the functions do not
mention the name. -/
structure SameExcept (name : String) (env env' : Environment) : Prop where
  settings : env.settings = env'.settings
  depth : env.depth = env'.depth
  bindings : ∀ other, other ≠ name → env.bindings.get? other = env'.bindings.get? other
  functions : ∀ other, other ≠ name → env.functions.find? other = env'.functions.find? other
  ranks : ∀ other, other ≠ name → env.functions.rank? other = env'.functions.rank? other
  unused : ∀ body ∈ env.functions.bodies, ¬ name.toList <:+: body.toList

namespace SameExcept

variable {name : String} {env env' : Environment}

theorem enter (h : SameExcept name env env') (parameter : String) (x : Float) :
    SameExcept name (env.enter parameter x) (env'.enter parameter x) where
  settings := h.settings
  depth := congrArg (· + 1) h.depth
  bindings := by
    intro other ne
    simp only [Environment.enter, Bindings.get?_insert, h.bindings other ne]
  functions := h.functions
  ranks := h.ranks
  unused := h.unused

theorem mem_knownNames_iff (h : SameExcept name env env') {other : String} (ne : other ≠ name) :
    other ∈ env.knownNames ↔ other ∈ env'.knownNames := by
  simp only [mem_knownNames_iff_contains, Bindings.contains, FunctionTable.contains,
    h.bindings other ne, h.functions other ne]

theorem read_eq (h : SameExcept name env env') {text : String}
    (absent : ¬ name.toList <:+: text.toList) : env.read text = env'.read text := by
  have ne {other : String} (within : other.toList <:+: text.toList) : other ≠ name := by
    rintro rfl
    exact absent within
  exact read_congr (fun other _ within => h.mem_knownNames_iff (ne within))
    (fun other within => h.ranks other (ne within))

end SameExcept

/-- No error is excused: the evaluations are the same. -/
theorem simulation_sameExcept (name : String) :
    Simulation (fun _ => False) (fun _ => False) (fun other => other ≠ name)
      (fun text => ¬ name.toList <:+: text.toList) (SameExcept name) where
  enter h := h.enter
  admitCall h := .of_eq (by simp only [admitCall, h.settings, h.depth])
  builtin h function x := by rw [h.settings]
  «variable» h _ ne := h.bindings _ ne
  function h _ ne := h.functions _ ne
  body h _ _ _ _ found := h.unused _ (FunctionTable.mem_bodies_of_find? found)
  read h _ absent := .of_eq (by rw [h.read_eq absent])
  mentioned _ _ absent _ read _ mentioned := by
    rintro rfl
    exact absent (isInfix_of_mentions read mentioned)

variable {env : Environment} {name : String}

section

variable (unused : ∀ body ∈ env.functions.bodies, ¬ name.toList <:+: body.toList)

include unused

theorem sameExcept_setVariable (value : Float) :
    SameExcept name env (env.setVariable name value) where
  settings := rfl
  depth := rfl
  bindings other ne := by simp [setVariable, Bindings.get?_insert, ne]
  functions _ _ := rfl
  ranks _ _ := rfl
  unused := unused

theorem sameExcept_removeVariable : SameExcept name env (env.removeVariable name).2 where
  settings := rfl
  depth := rfl
  bindings other ne := by simp [removeVariable, Bindings.get?_erase, ne]
  functions _ _ := rfl
  ranks _ _ := rfl
  unused := unused

theorem sameExcept_push (function : Function) :
    SameExcept name env { env with functions := env.functions.push name function } where
  settings := rfl
  depth := rfl
  bindings _ _ := rfl
  functions _ ne := (FunctionTable.find?_push_of_ne ne).symm
  ranks _ ne := (FunctionTable.rank?_push_of_ne ne).symm
  unused := unused

end

/-- A name that occurs neither in the text nor in the text of a function may be bound, bound to
another value, unbound, or defined as a function: the answer stays the same. -/
theorem evaluate_unmentioned {text : String} (absent : ¬ name.toList <:+: text.toList)
    (unused : ∀ body ∈ env.functions.bodies, ¬ name.toList <:+: body.toList) :
    (∀ value, (evaluate text).answer (env.setVariable name value) = (evaluate text).answer env) ∧
    (evaluate text).answer (env.removeVariable name).2 = (evaluate text).answer env ∧
    (env.functions.contains name = false → ∀ body parameter,
      ∃ env', env.defineFunction name body parameter = .ok env' ∧
        (evaluate text).answer env' = (evaluate text).answer env) := by
  have same {env' : Environment} (h : SameExcept name env env') :
      (evaluate text).answer env' = (evaluate text).answer env :=
    ((simulation_sameExcept name).evaluate h text absent).eq.symm
  refine ⟨?_, ?_, ?_⟩
  · intro value
    exact same (sameExcept_setVariable unused value)
  · exact same (sameExcept_removeVariable unused)
  · intro free body parameter
    refine ⟨_, ?_, same (sameExcept_push unused (.defined body parameter))⟩
    simp [defineFunction, free]

/-- The name of a parameter that the text of the function does not mention. -/
theorem evaluate_unmentioned_parameter :
    let env : Environment :=
      { initial .default with functions := FunctionTable.builtins.push "f" (.defined "2*pi" "w") }
    (∀ value,
      (evaluate "f(3)+e").answer (env.setVariable "w" value) = (evaluate "f(3)+e").answer env) ∧
    (evaluate "f(3)+e").answer (env.removeVariable "w").2 = (evaluate "f(3)+e").answer env ∧
    ∀ body parameter,
      ∃ env', env.defineFunction "w" body parameter = .ok env' ∧
        (evaluate "f(3)+e").answer env' = (evaluate "f(3)+e").answer env := by
  intro env
  have absent : ¬ "w".toList <:+: "f(3)+e".toList := by decide +kernel
  have unused : ∀ body ∈ env.functions.bodies, ¬ "w".toList <:+: body.toList := by decide +kernel
  obtain ⟨bound, unbound, defined⟩ := evaluate_unmentioned absent unused
  exact ⟨bound, unbound, defined (by decide +kernel)⟩

end Environment

end SeriesCalculator
