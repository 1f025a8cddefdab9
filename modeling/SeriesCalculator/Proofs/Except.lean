/-!
# Sequences that can fail

A sequence of two parts fails with the first one or, from its value, with the second one, and it has a
value exactly if both parts have one (`bind_eq_ok_iff`). A fold over a list is such a sequence of steps:
it fails where one of its steps does (`foldlM_eq_error_iff`).
-/

namespace SeriesCalculator

section

variable {ε δ α β : Type} {r : Except ε α}

/-- A sequence fails with its first part or, from the value of the first part, with the second. -/
theorem of_bind_eq_error {next : α → Except ε β} {error : ε}
    (h : (r >>= next) = .error error) :
    r = .error error ∨ ∃ a, r = .ok a ∧ next a = .error error := by
  cases r with
  | error other =>
      cases h
      exact .inl rfl
  | ok a => exact .inr ⟨a, rfl, h⟩

/-- A sequence has a value exactly if both of its parts do. -/
theorem bind_eq_ok_iff {next : α → Except ε β} {b : β} :
    (r >>= next) = .ok b ↔ ∃ a, r = .ok a ∧ next a = .ok b := by
  constructor
  · intro h
    cases r with
    | error error => cases h
    | ok a => exact ⟨a, rfl, h⟩
  · rintro ⟨a, rfl, second⟩
    exact second

theorem exists_bind_eq_ok_iff {next : α → Except ε β} :
    (∃ b, r >>= next = .ok b) ↔ ∃ a, r = .ok a ∧ ∃ b, next a = .ok b := by
  constructor
  · rintro ⟨b, h⟩
    obtain ⟨a, first, second⟩ := bind_eq_ok_iff.mp h
    exact ⟨a, first, b, second⟩
  · rintro ⟨a, first, b, second⟩
    exact ⟨b, bind_eq_ok_iff.mpr ⟨a, first, second⟩⟩

theorem of_mapError_eq_error {f : ε → δ} {error : δ} (h : r.mapError f = .error error) :
    ∃ cause, r = .error cause ∧ error = f cause := by
  cases r with
  | error cause =>
      cases h
      exact ⟨cause, rfl, rfl⟩
  | ok a => cases h

theorem of_mapError_eq_ok {f : ε → δ} {a : α} (h : r.mapError f = .ok a) : r = .ok a := by
  cases r with
  | error cause => cases h
  | ok b =>
      cases h
      rfl

end

section

variable {ε σ α : Type} {f g : σ → α → Except ε σ} {x : α} {xs ys : List α} {s t : σ}

/-- A fold over a list begins with a step over its first element. -/
theorem foldlM_cons_eq_ok_iff :
    (x :: xs).foldlM f s = .ok t ↔ ∃ u, f s x = .ok u ∧ xs.foldlM f u = .ok t := by
  rw [List.foldlM_cons]
  exact bind_eq_ok_iff

/-- A fold that succeeds on the first part of a list goes on with the second part. -/
theorem foldlM_append_of_ok (h : xs.foldlM f s = .ok t) :
    (xs ++ ys).foldlM f s = ys.foldlM f t := by
  rw [List.foldlM_append, h]
  rfl

theorem foldlM_congr (same : ∀ x ∈ xs, ∀ s, f s x = g s x) (s : σ) :
    xs.foldlM f s = xs.foldlM g s := by
  induction xs generalizing s with
  | nil => rfl
  | cons x xs ih =>
      rw [List.foldlM_cons, List.foldlM_cons, same x List.mem_cons_self]
      congr 1
      funext t
      exact ih (fun y mem => same y (List.mem_cons_of_mem _ mem)) t

/-- A fold fails if it succeeds up to some element and the step with this element fails. -/
theorem foldlM_eq_error_iff {error : ε} :
    xs.foldlM f s = .error error ↔
      ∃ front x rest t, xs = front ++ x :: rest ∧ front.foldlM f s = .ok t ∧
        f t x = .error error := by
  constructor
  · intro failed
    induction xs generalizing s with
    | nil => cases failed
    | cons x xs ih =>
        rw [List.foldlM_cons] at failed
        rcases of_bind_eq_error failed with stop | ⟨t, first, later⟩
        · exact ⟨[], x, xs, s, rfl, rfl, stop⟩
        · obtain ⟨front, y, rest, u, rfl, run, stop⟩ := ih later
          exact ⟨x :: front, y, rest, u, rfl, foldlM_cons_eq_ok_iff.mpr ⟨t, first, run⟩, stop⟩
  · rintro ⟨front, x, rest, t, rfl, run, stop⟩
    rw [foldlM_append_of_ok run, List.foldlM_cons, stop]
    rfl

end

end SeriesCalculator
