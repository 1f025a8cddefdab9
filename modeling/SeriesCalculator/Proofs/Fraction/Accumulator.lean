import SeriesCalculator.Fraction.Accumulator
import SeriesCalculator.Proofs.Fraction.Order
import SeriesCalculator.Proofs.Fraction.Undefined

/-!
# What a running calculation reports

A running calculation keeps one fraction, and what it reports of a step is the fraction that it keeps
after it, or a comparison. So what every step keeps holds of all fractions that are reported
(`value_mem_reports`): whatever the operands of the operations are, these are undefined or come out of a
reduction, and an undefined fraction stays undefined up to the next reciprocal and the next fraction
that is set.
-/

namespace SeriesCalculator.Fraction

variable {kept f : Fraction} {step : Step} {steps : List Step} {order : Ordering}

/-- If what is kept has a property after every step that it had before, and such a step reports only
what is admitted, then only such reports are made. -/
theorem forall_mem_reports (Kept : Fraction → Prop) (Admitted : Report → Prop)
    (keep : ∀ step ∈ steps, ∀ kept, Kept kept →
      Kept (step.run kept).1 ∧ Admitted (step.run kept).2)
    (start : Kept kept) : ∀ report ∈ reports kept steps, Admitted report := by
  induction steps generalizing kept with
  | nil => exact fun _ mem => absurd mem List.not_mem_nil
  | cons step steps ih =>
      obtain ⟨first, shown⟩ := keep step List.mem_cons_self kept start
      have later := ih (fun step mem => keep step (List.mem_cons_of_mem _ mem)) first
      exact List.forall_mem_cons.mpr ⟨shown, later⟩

theorem Step.fst_run_of_value (shown : (step.run kept).2 = .value f) : (step.run kept).1 = f := by
  cases step with
  | compare g => cases shown
  | _ => exact Report.value.inj shown

/-- What every step keeps holds of all fractions that are reported. -/
theorem value_mem_reports (Kept : Fraction → Prop)
    (keep : ∀ step ∈ steps, ∀ kept, Kept kept → Kept (step.run kept).1)
    (start : Kept kept) (mem : .value f ∈ reports kept steps) : Kept f := by
  refine forall_mem_reports Kept (fun report => ∀ f, report = .value f → Kept f) ?_ start _ mem f rfl
  intro step inSteps kept before
  have after := keep step inSteps kept before
  exact ⟨after, fun f shown => Step.fst_run_of_value shown ▸ after⟩

/-- A fraction as it may be stored: undefined, or reduced. -/
def IsStored (f : Fraction) : Prop := f.isUndefined = true ∨ IsReduced f

theorem isStored_reduced (num den : Int32) : IsStored (reduced num den) := by
  by_cases zero : den = 0
  · exact .inl (isUndefined_reduced_iff.mpr zero)
  · exact .inr ⟨num, den, zero, rfl⟩

theorem isStored_div (f g : Fraction) : IsStored (f / g) := by
  change IsStored (if g.isUndefined then undefined else f * g.reciprocal)
  split
  · exact .inl rfl
  · exact isStored_reduced _ _

theorem Step.isStored_run (start : IsStored kept) (given : ∀ f, step = .set f → IsStored f) :
    IsStored (step.run kept).1 := by
  cases step with
  | div f => exact isStored_div kept f
  | set f => exact given f rfl
  | compare f => exact start
  | _ => exact isStored_reduced _ _

/-- If the fractions at the start and those that are set are stored ones, then so are all that are
reported. Nothing is asked of the other operands. -/
theorem isStored_of_mem_reports (start : IsStored kept) (given : ∀ f, .set f ∈ steps → IsStored f)
    (mem : .value f ∈ reports kept steps) : IsStored f := by
  refine value_mem_reports IsStored ?_ start mem
  intro step inSteps kept stored
  exact step.isStored_run stored fun f same => given f (same ▸ inSteps)

/-- The steps that can lead away from an undefined fraction. -/
def Step.Restores (step : Step) : Prop := step = .reciprocal ∨ ∃ f, step = .set f

theorem Step.isUndefined_run (undefined : kept.isUndefined = true) (stays : ¬ step.Restores) :
    (step.run kept).1.isUndefined = true := by
  have operation (op : Operation) (f : Fraction) : (op.apply kept f).isUndefined = true :=
    isUndefined_apply (.inl undefined)
  cases step with
  | add f => exact operation .add f
  | sub f => exact operation .sub f
  | mul f => exact operation .mul f
  | div f => exact operation .div f
  | neg => exact isUndefined_neg.mpr undefined
  | reciprocal => exact (stays (.inl rfl)).elim
  | set f => exact (stays (.inr ⟨f, rfl⟩)).elim
  | compare f => exact undefined

/-- After an undefined fraction only undefined ones are reported, until a reciprocal is taken or another
fraction is set. -/
theorem isUndefined_of_mem_reports (undefined : kept.isUndefined = true)
    (stay : ∀ step ∈ steps, ¬ step.Restores) (mem : .value f ∈ reports kept steps) :
    f.isUndefined = true := by
  refine value_mem_reports (·.isUndefined = true) ?_ undefined mem
  intro step inSteps kept before
  exact step.isUndefined_run before (stay step inSteps)

theorem compare_self (f : Fraction) : compare f f = .eq := by
  have none : crossDifference f f = 0 := Int.sub_self _
  rw [compare_eq_eq_iff, none]
  exact Int.dvd_zero _

/-- Fractions that are reported to be equal compare as equal, whatever wraps. -/
theorem order_eq_of_mem_reports (mem : .comparison order true ∈ reports kept steps) :
    order = .eq := by
  refine forall_mem_reports (fun _ => True)
    (fun report => ∀ order, report = .comparison order true → order = .eq) ?_ trivial _ mem order rfl
  intro step _ kept _
  refine ⟨trivial, fun order shown => ?_⟩
  cases step with
  | compare f =>
      obtain ⟨rfl, equal⟩ := Report.comparison.inj shown
      rw [of_decide_eq_true equal]
      exact compare_self f
  | _ => cases shown

end SeriesCalculator.Fraction
