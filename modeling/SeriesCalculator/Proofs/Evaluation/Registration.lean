import SeriesCalculator.Proofs.Evaluation.Simulation
import SeriesCalculator.Proofs.Reading.Ranks

/-!
# The order in which functions were entered

Two environments hold the same functions, entered in different orders. The order decides which of
two functions may stand directly before the other, and nothing else: a text is cut into the same
tokens, and a name finds the same function. So evaluations have the same answer, unless one of
them meets, in the text or in that of a function, two functions in an order that is wrong for it.
-/

namespace SeriesCalculator

namespace FunctionTable

variable {t t' : FunctionTable}

/-- Where every name is entered once, the function of a name is the one it was entered with. -/
theorem find?_eq_some_iff_mem (distinct : t.names.Nodup) {name : String} {function : Function} :
    t.find? name = some function ↔ (name, function) ∈ t.entries := by
  rw [find?, List.lookup_eq_some_iff]
  constructor
  · rintro ⟨before, behind, entries, -⟩
    simp [entries]
  · intro mem
    obtain ⟨before, behind, entries⟩ := List.append_of_mem mem
    refine ⟨before, behind, entries, ?_⟩
    rintro ⟨other, f⟩ inFront
    rw [names, entries, List.map_append, List.map_cons, List.nodup_append] at distinct
    have ne := distinct.2.2 other (List.mem_map_of_mem inFront) name List.mem_cons_self
    simpa using Ne.symm ne

theorem find?_eq_of_perm (distinct : t.names.Nodup) (perm : t.entries.Perm t'.entries)
    (name : String) : t.find? name = t'.find? name := by
  have distinct' : t'.names.Nodup := (perm.map Prod.fst).nodup_iff.mp distinct
  apply Option.ext
  intro function
  rw [find?_eq_some_iff_mem distinct, find?_eq_some_iff_mem distinct']
  exact perm.mem_iff

end FunctionTable

namespace Environment

open Calculation

/-- Environments that differ in the order of their functions only. -/
structure Reordered (env env' : Environment) : Prop where
  bindings : env.bindings = env'.bindings
  settings : env.settings = env'.settings
  depth : env.depth = env'.depth
  distinct : env.functions.names.Nodup
  perm : env.functions.entries.Perm env'.functions.entries

namespace Reordered

variable {env env' : Environment}

theorem enter (h : Reordered env env') (parameter : String) (x : Float) :
    Reordered (env.enter parameter x) (env'.enter parameter x) where
  bindings := congrArg (·.insert parameter x) h.bindings
  settings := h.settings
  depth := congrArg (· + 1) h.depth
  distinct := h.distinct
  perm := h.perm

theorem find?_eq (h : Reordered env env') (name : String) :
    env.functions.find? name = env'.functions.find? name :=
  FunctionTable.find?_eq_of_perm h.distinct h.perm name

theorem contains_eq (h : Reordered env env') (name : String) :
    env.functions.contains name = env'.functions.contains name := by
  simp only [FunctionTable.contains, h.find?_eq]

/-- The tokens are the same, although names of the same length may be tried in another order. -/
theorem tokenize_eq (h : Reordered env env') (text : List Char) :
    env.tokenize text = env'.tokenize text := by
  apply tokenize_congr
  intro name _ _
  rw [mem_knownNames_iff_contains, mem_knownNames_iff_contains, h.bindings, h.contains_eq]

theorem agree_read (h : Reordered env env') (text : String) :
    Agree ExpressionFault.Misordered ExpressionFault.Misordered (env.read text)
      (env'.read text) := by
  simp only [read, h.tokenize_eq]
  split
  · exact .same _
  · exact agree_readTokens h.contains_eq _

end Reordered

/-- An evaluation that ends because two functions stand in the wrong order. -/
def EndsMisordered (error : Error) : Prop :=
  ∃ outer inner, error = .malformed (.numberExpected outer inner)

/-- On both sides a wrong order of functions is excused. -/
theorem simulation_reordered :
    Simulation EndsMisordered EndsMisordered (fun _ => True) (fun _ => True) Reordered where
  enter h := h.enter
  admitCall h := .of_eq (by simp only [admitCall, h.settings, h.depth])
  builtin h function x := by rw [h.settings]
  «variable» h name _ := by rw [h.bindings]
  function h name _ := h.find?_eq name
  body := by
    intros
    trivial
  read h text _ := by
    have misordered (fault : ExpressionFault) :
        fault.Misordered → EndsMisordered (.malformed fault) := by
      rintro ⟨outer, inner, rfl⟩
      exact ⟨outer, inner, rfl⟩
    exact (h.agree_read text).mapError misordered misordered
  mentioned := by
    intros
    trivial

/-- Two values that a text has under different orders of the functions are equal. Where the answers
differ at all, one of them is the error that two functions stand in the wrong order. -/
theorem evaluate_reordered {env env' : Environment} (h : Reordered env env') (text : String) :
    (∀ a b, (evaluate text).answer env = .ok a → (evaluate text).answer env' = .ok b → a = b) ∧
    ((evaluate text).answer env ≠ (evaluate text).answer env' →
      ∃ outer inner,
        (evaluate text).answer env = .error (.malformed (.numberExpected outer inner)) ∨
        (evaluate text).answer env' = .error (.malformed (.numberExpected outer inner))) := by
  have agree := simulation_reordered.evaluate h text trivial
  constructor
  · intro a b first second
    rw [first, second] at agree
    exact agree.eq_of_ok
  · intro ne
    rcases agree.eq_or_excused with
      same | ⟨_, ⟨outer, inner, rfl⟩, first⟩ | ⟨_, ⟨outer, inner, rfl⟩, second⟩
    · exact (ne same).elim
    · exact ⟨outer, inner, .inl first⟩
    · exact ⟨outer, inner, .inr second⟩

/-- Under both orders the double of a cube has the same value. Without the parentheses the later one
of two functions may stand directly before the other, and the cube of a double is wrong under one
of the orders. -/
theorem evaluate_reordered_double :
    let double : String × Function := ("double", .defined "2*t" "t")
    let cube : String × Function := ("cube", .defined "t^3" "t")
    let entered (functions : List (String × Function)) : Environment :=
      { initial .default with functions := ⟨FunctionTable.builtins.entries ++ functions⟩ }
    let env := entered [double, cube]
    let env' := entered [cube, double]
    Reordered env env' ∧
    ((evaluate "double(cube(5))").answer env = .ok 250 ∧
      (evaluate "double(cube(5))").answer env' = .ok 250 ∧
      ∀ a b, (evaluate "double(cube(5))").answer env = .ok a →
        (evaluate "double(cube(5))").answer env' = .ok b → a = b) ∧
    (evaluate "cube double 5").answer env = .ok 1000 ∧
      (evaluate "cube double 5").answer env' =
        .error (.malformed (.numberExpected "cube" "double")) ∧
      ∃ outer inner,
        (evaluate "cube double 5").answer env =
          .error (.malformed (.numberExpected outer inner)) ∨
        (evaluate "cube double 5").answer env' =
          .error (.malformed (.numberExpected outer inner)) := by
  intro double cube entered env env'
  have reordered : Reordered env env' :=
    { bindings := rfl
      settings := rfl
      depth := rfl
      distinct := by decide +kernel
      perm := (List.Perm.swap cube double []).append_left _ }
  -- The names in an order in which longer ones come first: sorting them does not compute.
  let names := ["double", "cosec", "cube", "sin", "cos", "tan", "sec", "csc", "cot", "abs", "exp",
    "pi", "ln", "e"]
  have sorted : Piece.LongerFirst names ∧ Piece.LongerFirst (names ++ ["t"]) := by decide +kernel
  have tokens : ∀ e ∈ [env, env'], ∀ text, e.tokenize text = Token.ofChars names text := by
    have known : ∀ e ∈ [env, env'], names.Perm (e.bindings.names ++ e.functions.names) := by
      decide +kernel
    exact fun e mem => tokenize_eq_ofChars names sorted.1 (known e mem)
  have values : ∀ e ∈ [env, env'],
      (evaluate "2*t").answer (e.enter "t" 5) = .ok 10 ∧
      (evaluate "2*t").answer (e.enter "t" 125) = .ok 250 ∧
      (evaluate "t^3").answer (e.enter "t" 5) = .ok 125 ∧
      (evaluate "t^3").answer (e.enter "t" 10) = .ok 1000 := by
    intro e mem
    have tokens : ∀ x ∈ [(5 : Float), 10, 125], ∀ text,
        (e.enter "t" x).tokenize text = Token.ofChars (names ++ ["t"]) text := by
      have known : ∀ e ∈ [env, env'], ∀ x ∈ [(5 : Float), 10, 125], (names ++ ["t"]).Perm
          ((e.enter "t" x).bindings.names ++ (e.enter "t" x).functions.names) := by
        decide +kernel
      exact fun x number => tokenize_eq_ofChars _ sorted.2 (known e mem x number)
    simp only [answer_evaluate, Environment.read, tokens 5 (by simp), tokens 10 (by simp),
      tokens 125 (by simp)]
    clear tokens
    revert e
    decide +kernel
  have calls : ∀ e ∈ [env, env'],
      (evaluateTree (.call "double" (.call "cube" (.number 5)))).answer e = .ok 250 ∧
      (evaluateTree (.call "cube" (.call "double" (.number 5)))).answer e = .ok 1000 := by
    intro e mem
    have found : ∀ e ∈ [env, env'], e.admitCall = .ok () ∧
        e.functions.find? "double" = some (.defined "2*t" "t") ∧
        e.functions.find? "cube" = some (.defined "t^3" "t") := by
      decide +kernel
    obtain ⟨admitted, doubleFound, cubeFound⟩ := found e mem
    obtain ⟨ten, twoHundredFifty, hundredTwentyFive, thousand⟩ := values e mem
    have five := answer_evaluateTree_number e 5
    constructor
    · have inner := answer_evaluateTree_call_defined e cubeFound admitted five hundredTwentyFive
      exact answer_evaluateTree_call_defined e doubleFound admitted inner twoHundredFifty
    · have inner := answer_evaluateTree_call_defined e doubleFound admitted five ten
      exact answer_evaluateTree_call_defined e cubeFound admitted inner thousand
  have doubleOfCube : ∀ e ∈ [env, env'], (evaluate "double(cube(5))").answer e = .ok 250 := by
    intro e mem
    have tree : (e.read "double(cube(5))").map Reading.tree =
        .ok (.call "double" (.call "cube" (.number 5))) := by
      rw [Environment.read, tokens e mem]
      revert e
      decide +kernel
    rw [answer_evaluate_of_tree e tree]
    exact (calls e mem).1
  have cubeOfDouble : (evaluate "cube double 5").answer env = .ok 1000 := by
    have tree : (env.read "cube double 5").map Reading.tree =
        .ok (.call "cube" (.call "double" (.number 5))) := by
      rw [Environment.read, tokens env (by simp)]
      decide +kernel
    rw [answer_evaluate_of_tree env tree]
    exact (calls env (by simp)).2
  have misordered : (evaluate "cube double 5").answer env' =
      .error (.malformed (.numberExpected "cube" "double")) := by
    rw [answer_evaluate, Environment.read, tokens env' (by simp)]
    decide +kernel
  obtain ⟨equal, -⟩ := evaluate_reordered reordered "double(cube(5))"
  obtain ⟨-, wrong⟩ := evaluate_reordered reordered "cube double 5"
  have differ : (evaluate "cube double 5").answer env ≠ (evaluate "cube double 5").answer env' := by
    rw [cubeOfDouble, misordered]
    simp
  exact ⟨reordered, ⟨doubleOfCube env (by simp), doubleOfCube env' (by simp), equal⟩,
    cubeOfDouble, misordered, wrong differ⟩

end Environment

end SeriesCalculator
