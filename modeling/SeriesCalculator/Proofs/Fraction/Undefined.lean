import SeriesCalculator.Proofs.Fraction.Arithmetic

/-!
# Where undefined fractions come from

A fraction is undefined by its denominator zero alone. Every operation multiplies denominators, so
an undefined operand makes the result undefined, whatever wraps (`isUndefined_apply`). Reciprocals
need a word of care: the reciprocal of an undefined fraction can have a value, which is why a
division looks at its divisor first.

The other way round a product of denominators that does not wrap is zero only if one of them is,
and the denominator of a reciprocal is zero only if the divisor is (`of_isUndefined_apply`). Both
carry over to formulas of any shape by induction (`evaluate_isUndefined`).
-/

namespace SeriesCalculator.Fraction

variable {x y : Fraction} {op : Operation}

theorem isUndefined_iff : x.isUndefined = true ↔ x.den = 0 := beq_iff_eq

theorem isZero_iff : x.isZero = true ↔ x.num = 0 ∧ x.den ≠ 0 := by
  simp [isZero]

theorem isUndefined_reduced_iff {a b : Int32} : (reduced a b).isUndefined = true ↔ b = 0 := by
  rw [isUndefined_iff]
  constructor
  · intro zero
    by_contra nonzero
    exact den_reduced_ne_zero nonzero zero
  · intro undefined
    rw [reduced, if_pos undefined]
    exact undefined

theorem isUndefined_neg : (-x).isUndefined = true ↔ x.isUndefined = true :=
  isUndefined_reduced_iff.trans isUndefined_iff.symm

/-- An undefined operand makes the result undefined, on either side. -/
theorem isUndefined_apply (undefined : x.isUndefined = true ∨ y.isUndefined = true) :
    (op.apply x y).isUndefined = true := by
  have product : x.den * y.den = 0 := by
    rcases undefined with left | right
    · rw [isUndefined_iff.mp left, Int32.zero_mul]
    · rw [isUndefined_iff.mp right, Int32.mul_zero]
  cases op with
  | div =>
      by_cases divisor : y.isUndefined = true
      · exact congrArg isUndefined (if_pos divisor)
      · have left := isUndefined_iff.mp (undefined.resolve_right divisor)
        have quotient : Operation.div.apply x y = x * y.reciprocal := if_neg divisor
        rw [quotient]
        refine isUndefined_reduced_iff.mpr ?_
        rw [left, Int32.zero_mul]
  | _ => exact isUndefined_reduced_iff.mpr product

/-- An undefined result without wrapped products has an undefined operand or is a quotient by
zero. -/
theorem of_isUndefined_apply (fits : ∀ n ∈ op.products x y, Fits n)
    (undefined : (op.apply x y).isUndefined = true) :
    x.isUndefined = true ∨ y.isUndefined = true ∨ op = .div ∧ y.isZero = true := by
  simp only [isUndefined_iff, isZero_iff]
  by_contra! other
  obtain ⟨denX, denY, divisor⟩ := other
  have divisor' : op = .div → y.num ≠ 0 := fun division zero => denY (divisor division zero)
  have nonzero := Operation.denominator_ne_zero denX denY divisor'
  have inside := fits _ (Operation.denominator_mem_products fun _ => denY)
  rw [Operation.apply_eq fun _ => denY, isUndefined_reduced_iff] at undefined
  rw [← toInt_ofInt_of_fits inside, undefined, Int32.toInt_zero] at nonzero
  exact nonzero rfl

/-- A formula over fractions. Its leaves are given by two words. -/
inductive Formula
  | leaf (num den : Int32)
  | neg (operand : Formula)
  | operation (op : Operation) (left right : Formula)

namespace Formula

/-- The value of a formula, from the leaves upward. -/
def evaluate : Formula → Fraction
  | .leaf num den => reduced num den
  | .neg f => -f.evaluate
  | .operation op l r => op.apply l.evaluate r.evaluate

/-- The fractions at the leaves. -/
def leaves : Formula → List Fraction
  | .leaf num den => [reduced num den]
  | .neg f => f.leaves
  | .operation _ l r => l.leaves ++ r.leaves

/-- The values of the divisors. -/
def divisors : Formula → List Fraction
  | .leaf _ _ => []
  | .neg f => f.divisors
  | .operation .div l r => r.evaluate :: (l.divisors ++ r.divisors)
  | .operation _ l r => l.divisors ++ r.divisors

/-- The products of words that the evaluation forms, as integers. -/
def products : Formula → List ℤ
  | .leaf _ _ => []
  | .neg f => f.products
  | .operation op l r => op.products l.evaluate r.evaluate ++ (l.products ++ r.products)

theorem mem_divisors_operation {f : Fraction} {l r : Formula}
    (mem : f ∈ l.divisors ∨ f ∈ r.divisors) : f ∈ (operation op l r).divisors := by
  cases op with
  | div => exact List.mem_cons_of_mem _ (List.mem_append.mpr mem)
  | _ => exact List.mem_append.mpr mem

theorem isUndefined_evaluate {f : Fraction} (t : Formula) (mem : f ∈ t.leaves)
    (undefined : f.isUndefined = true) : t.evaluate.isUndefined = true := by
  induction t with
  | leaf num den =>
      rw [leaves, List.mem_singleton] at mem
      rw [evaluate, ← mem]
      exact undefined
  | neg t ih => exact isUndefined_neg.mpr (ih mem)
  | operation op l r ihl ihr =>
      rw [leaves, List.mem_append] at mem
      exact isUndefined_apply (mem.imp ihl ihr)

theorem of_isUndefined_evaluate (t : Formula) (fits : ∀ n ∈ t.products, Fits n)
    (undefined : t.evaluate.isUndefined = true) :
    (∃ f ∈ t.leaves, f.isUndefined = true) ∨ ∃ f ∈ t.divisors, f.isZero = true := by
  induction t with
  | leaf num den => exact .inl ⟨_, List.mem_singleton_self _, undefined⟩
  | neg t ih => exact ih fits (isUndefined_neg.mp undefined)
  | operation op l r ihl ihr =>
      simp only [products, List.forall_mem_append] at fits
      obtain ⟨own, fitsL, fitsR⟩ := fits
      rcases of_isUndefined_apply own undefined with left | right | ⟨rfl, zero⟩
      · refine (ihl fitsL left).imp ?_ ?_
        · exact fun ⟨f, mem, h⟩ => ⟨f, List.mem_append_left _ mem, h⟩
        · exact fun ⟨f, mem, h⟩ => ⟨f, mem_divisors_operation (.inl mem), h⟩
      · refine (ihr fitsR right).imp ?_ ?_
        · exact fun ⟨f, mem, h⟩ => ⟨f, List.mem_append_right _ mem, h⟩
        · exact fun ⟨f, mem, h⟩ => ⟨f, mem_divisors_operation (.inr mem), h⟩
      · exact .inr ⟨_, List.mem_cons_self, zero⟩

/-- A formula with an undefined leaf is undefined, even where products wrap. Without wrapped
products an undefined formula has an undefined leaf or a divisor with the value zero. -/
theorem evaluate_isUndefined (t : Formula) :
    ((∃ f ∈ t.leaves, f.isUndefined = true) → t.evaluate.isUndefined = true) ∧
    ((∀ n ∈ t.products, Fits n) → t.evaluate.isUndefined = true →
      (∃ f ∈ t.leaves, f.isUndefined = true) ∨ ∃ f ∈ t.divisors, f.isZero = true) :=
  ⟨fun ⟨_, mem, undefined⟩ => t.isUndefined_evaluate mem undefined, t.of_isUndefined_evaluate⟩

/-- An undefined leaf goes through a quotient and a sum that wraps. A half divided by the difference
of a third and itself is undefined because of the divisor. -/
theorem evaluate_isUndefined_difference :
    let wraps := operation .add (.leaf 2147483647 2) (.operation .div (.leaf 5 0) (.leaf 1 3))
    let quotient := operation .div (.leaf 1 2) (.operation .sub (.leaf 1 3) (.leaf 1 3))
    reduced 5 0 ∈ wraps.leaves ∧ wraps.evaluate.isUndefined = true ∧
      (∀ n ∈ quotient.products, Fits n) ∧ quotient.evaluate.isUndefined = true ∧
      ((∃ f ∈ quotient.leaves, f.isUndefined = true) ∨
        ∃ f ∈ quotient.divisors, f.isZero = true) := by
  intro wraps quotient
  have mem : reduced 5 0 ∈ wraps.leaves := by simp [wraps, leaves]
  have half : reduced 1 2 = { num := 1, den := 2 } :=
    InLowestTerms.reduced_eq (x := { num := 1, den := 2 }) ⟨by decide, by decide⟩
  have third : reduced 1 3 = { num := 1, den := 3 } :=
    InLowestTerms.reduced_eq (x := { num := 1, den := 3 }) ⟨by decide, by decide⟩
  have difference : ({ num := 1, den := 3 } : Fraction) - { num := 1, den := 3 } =
      { num := 0, den := 1 } := by
    change reduced 0 9 = _
    rw [reduced, if_neg (by decide), if_pos rfl]
  have inverse : ({ num := 0, den := 1 } : Fraction).reciprocal = { num := 1, den := 0 } := by
    rw [reciprocal, reduced, if_pos rfl]
  have products : ∀ n ∈ quotient.products, Fits n := by
    simp only [quotient, Formula.products, evaluate, Operation.apply, half, third, difference,
      Operation.products, inverse]
    decide
  have undefined : quotient.evaluate.isUndefined = true := by
    simp only [quotient, evaluate, Operation.apply, half, third, difference]
    change (({ num := 1, den := 2 } : Fraction) * reciprocal { num := 0, den := 1 }).isUndefined = _
    rw [inverse]
    exact isUndefined_reduced_iff.mpr (by decide)
  exact ⟨mem, (evaluate_isUndefined wraps).1 ⟨_, mem, isUndefined_reduced_iff.mpr rfl⟩, products,
    undefined, (evaluate_isUndefined quotient).2 products undefined⟩

end Formula

end SeriesCalculator.Fraction
