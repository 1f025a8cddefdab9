/-!
# Steps one after the other

A loop is given by its step, which leads from one state to the next and is missing where the loop
ends. `Iterates` counts the steps between two states. What a step keeps is kept by any number of
steps. If every step makes a measure smaller, the measure bounds the number of steps, and the loop
comes to its end.
-/

namespace SeriesCalculator

/-- Exactly `n` steps lead from the first state to the second one. -/
inductive Iterates {σ : Type} (step : σ → Option σ) : Nat → σ → σ → Prop
  | refl (s : σ) : Iterates step 0 s s
  | cons {n : Nat} {s u t : σ} (first : step s = some u) (rest : Iterates step n u t) :
      Iterates step (n + 1) s t

namespace Iterates

variable {σ β : Type} {step : σ → Option σ} {n : Nat} {s t : σ}

theorem invariant {Inv : σ → Prop} (kept : ∀ {s t}, step s = some t → Inv s → Inv t)
    (h : Iterates step n s t) (start : Inv s) : Inv t := by
  induction h with
  | refl => exact start
  | cons first rest ih => exact ih (kept first start)

/-- What depends on the state and is the same after a step is the same after all of them. -/
theorem apply_eq {f : σ → β} (same : ∀ {s t}, step s = some t → f s = f t)
    (h : Iterates step n s t) : f s = f t := by
  induction h with
  | refl => rfl
  | cons first rest ih => exact (same first).trans ih

section Measure

variable {measure : σ → Nat} (smaller : ∀ {s t}, step s = some t → measure t < measure s)

include smaller

theorem add_measure_le (h : Iterates step n s t) : n + measure t ≤ measure s := by
  induction h with
  | refl => exact Nat.le_of_eq (Nat.zero_add _)
  | cons first rest ih =>
      have := smaller first
      omega

theorem exists_end (s : σ) : ∃ n t, Iterates step n s t ∧ step t = none := by
  induction left : measure s using Nat.strongRecOn generalizing s with
  | ind m ih =>
      cases next : step s with
      | none => exact ⟨0, s, .refl s, next⟩
      | some u =>
          obtain ⟨n, t, run, ended⟩ := ih (measure u) (left ▸ smaller next) u rfl
          exact ⟨n + 1, t, .cons next run, ended⟩

end Measure

end Iterates

end SeriesCalculator
