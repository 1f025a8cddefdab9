/-!
# Agreement of answers

The same calculation is made twice, under circumstances that differ. `Agree` compares the two
answers: they are equal, except that either side may end in an error that is excused by the
difference. Sequences of agreeing parts agree, since an excused error ends its side at once.
-/

namespace SeriesCalculator

/-- Two answers are equal, or one of them is an error that is excused on its side. -/
inductive Agree {ε α : Type} (excused excused' : ε → Prop) : Except ε α → Except ε α → Prop
  | same (r : Except ε α) : Agree excused excused' r r
  | left {error : ε} (h : excused error) (r' : Except ε α) :
      Agree excused excused' (.error error) r'
  | right {error : ε} (r : Except ε α) (h : excused' error) :
      Agree excused excused' r (.error error)

namespace Agree

variable {ε α β : Type} {excused excused' : ε → Prop} {r r' : Except ε α}

theorem of_eq (h : r = r') : Agree excused excused' r r' :=
  h ▸ .same r

theorem eq_of_ok {a a' : α} (h : Agree excused excused' (.ok a) (.ok a')) : a = a' := by
  cases h
  rfl

theorem eq_or_excused (h : Agree excused excused' r r') :
    r = r' ∨ (∃ error, excused error ∧ r = .error error) ∨
      ∃ error, excused' error ∧ r' = .error error := by
  cases h with
  | same => exact .inl rfl
  | left h => exact .inr (.inl ⟨_, h, rfl⟩)
  | right _ h => exact .inr (.inr ⟨_, h, rfl⟩)

/-- Where no error is excused, agreement is equality. -/
theorem eq (h : Agree (fun _ => False) (fun _ => False) r r') : r = r' := by
  rcases h.eq_or_excused with same | ⟨_, no, _⟩ | ⟨_, no, _⟩
  · exact same
  · exact no.elim
  · exact no.elim

/-- After agreeing first parts the second parts start from the same value. -/
theorem bind {next next' : α → Except ε β} (first : Agree excused excused' r r')
    (second : ∀ a, r = .ok a → r' = .ok a → Agree excused excused' (next a) (next' a)) :
    Agree excused excused' (r >>= next) (r' >>= next') := by
  cases first with
  | same =>
      cases r with
      | ok a => exact second a rfl rfl
      | error error => exact .same _
  | left h => exact .left h _
  | right _ h => exact .right _ h

/-- The second parts start from values of which one is a view of the other. -/
theorem bind_view {σ τ : Type} {s : Except ε σ} {t : Except ε τ} {view : σ → τ}
    {next : σ → Except ε α} {next' : τ → Except ε α}
    (first : Agree excused excused' (s.map view) t)
    (second : ∀ a, Agree excused excused' (next a) (next' (view a))) :
    Agree excused excused' (s >>= next) (t >>= next') := by
  cases s with
  | ok a =>
      change Agree excused excused' (.ok (view a)) t at first
      cases first with
      | same => exact second a
      | right _ h => exact .right _ h
  | error error =>
      change Agree excused excused' (.error error) t at first
      cases first with
      | same => exact .same _
      | left h => exact .left h _
      | right _ h => exact .right _ h

theorem mapError {δ : Type} {kept kept' : δ → Prop} {f : ε → δ}
    (h : Agree excused excused' r r') (keep : ∀ error, excused error → kept (f error))
    (keep' : ∀ error, excused' error → kept' (f error)) :
    Agree kept kept' (r.mapError f) (r'.mapError f) := by
  cases h with
  | same => exact .same _
  | left h => exact .left (keep _ h) _
  | right _ h => exact .right _ (keep' _ h)

/-- Folds over the same list agree if single steps do, the states of one seen through `view`. -/
theorem foldlM {ε σ τ α : Type} {excused excused' : ε → Prop} {f : σ → α → Except ε σ}
    {g : τ → α → Except ε τ} (view : σ → τ)
    (step : ∀ s x, Agree excused excused' ((f s x).map view) (g (view s) x)) (xs : List α) (s : σ) :
    Agree excused excused' ((xs.foldlM f s).map view) (xs.foldlM g (view s)) := by
  induction xs generalizing s with
  | nil => exact .same _
  | cons x xs ih =>
      rw [List.foldlM_cons, List.foldlM_cons]
      change Agree excused excused' (view <$> (f s x >>= fun t => xs.foldlM f t)) _
      rw [map_bind]
      exact (step s x).bind_view ih

end Agree

end SeriesCalculator
