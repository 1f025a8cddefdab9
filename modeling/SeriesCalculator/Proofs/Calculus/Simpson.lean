import SeriesCalculator.Calculus
import Mathlib

/-!
# The formula of Simpson

The nodes of the formula divide the way from `a` to `b` into equal intervals. Two loops of step two and
the two ends visit each of them once (`order_perm`), and with exact rational numbers the samples enter
with the weights `1, 4, 2, …, 2, 4, 1` (`simpson_eq_mapM`). The samples may have effects, and then these
happen in the order of the visits.

Seen another way the formula adds up panels of two intervals each (`sum_weighted_eq_panels`). On a panel
it gives the increase of the primitive of any polynomial of degree at most three, and these increases
add up to the integral (`integral_eq_sub_primitive`).
-/

namespace SeriesCalculator.Simpson

open Finset

variable {a b : ℚ} {n : ℕ} {m : Type → Type} [Monad m]

/-- The end of `i` of `n` equal intervals between `a` and `b`. -/
def node (a b : ℚ) (n i : ℕ) : ℚ := a + i * ((b - a) / n)

/-- The weight of a node: one at the ends, four at the odd nodes, two at the even ones between. -/
def weight (n i : ℕ) : ℚ := if i = 0 ∨ i = n then 1 else if i % 2 = 1 then 4 else 2

/-- The nodes in the order in which they are sampled. -/
def order (n : ℕ) : List ℕ :=
  0 :: n :: ((List.range (n / 2)).map (1 + 2 * ·) ++ (List.range (n / 2 - 1)).map (2 + 2 * ·))

@[simp] theorem node_zero (a b : ℚ) (n : ℕ) : node a b n 0 = a := by
  simp [node]

theorem node_last (a b : ℚ) (pos : n ≠ 0) : node a b n n = b := by
  have : (n : ℚ) ≠ 0 := Nat.cast_ne_zero.mpr pos
  rw [node, mul_div_cancel₀ _ this, add_sub_cancel]

theorem node_add (a b : ℚ) (n i k : ℕ) :
    node a b n (i + k) = node a b n i + k * ((b - a) / n) := by
  rw [node, node, Nat.cast_add, add_mul, add_assoc]

theorem node_swap (pos : n ≠ 0) {i : ℕ} (le : i ≤ n) : node b a n i = node a b n (n - i) := by
  have : (n : ℚ) ≠ 0 := Nat.cast_ne_zero.mpr pos
  rw [node, node, Nat.cast_sub le]
  field_simp
  ring

@[simp] theorem weight_zero (n : ℕ) : weight n 0 = 1 := if_pos (.inl rfl)

@[simp] theorem weight_last (n : ℕ) : weight n n = 1 := if_pos (.inr rfl)

theorem weight_odd {i : ℕ} (inside : i < n) (odd : i % 2 = 1) : weight n i = 4 := by
  rw [weight, if_neg (by omega), if_pos odd]

theorem weight_between {i : ℕ} (pos : 0 < i) (inside : i < n) (even : i % 2 = 0) :
    weight n i = 2 := by
  rw [weight, if_neg (by omega), if_neg (by omega)]

theorem weight_swap (even : Even n) {i : ℕ} (le : i ≤ n) : weight n (n - i) = weight n i := by
  obtain ⟨k, rfl⟩ := even
  have ends : (k + k - i = 0 ∨ k + k - i = k + k) ↔ (i = 0 ∨ i = k + k) := by omega
  have odd : (k + k - i) % 2 = 1 ↔ i % 2 = 1 := by omega
  simp only [weight, ends, odd]

theorem mem_order_iff (even : Even n) (two_le : 2 ≤ n) {i : ℕ} : i ∈ order n ↔ i ≤ n := by
  obtain ⟨k, rfl⟩ := even
  simp only [order, List.mem_cons, List.mem_append, List.mem_map, List.mem_range]
  constructor
  · rintro (rfl | rfl | ⟨j, below, rfl⟩ | ⟨j, below, rfl⟩) <;> omega
  · intro le
    rcases Nat.even_or_odd' i with ⟨j, rfl | rfl⟩
    · rcases eq_or_ne j 0 with rfl | inside
      · exact .inl rfl
      · rcases eq_or_ne j k with rfl | below
        · exact .inr (.inl (two_mul j))
        · exact .inr (.inr (.inr ⟨j - 1, by omega, by omega⟩))
    · exact .inr (.inr (.inl ⟨j, by omega, add_comm _ _⟩))

theorem nodup_order (even : Even n) (two_le : 2 ≤ n) : (order n).Nodup := by
  obtain ⟨k, rfl⟩ := even
  have injective (first : ℕ) : Function.Injective (first + 2 * ·) := fun i j same => by
    simp only at same
    omega
  simp only [order, List.nodup_cons, List.nodup_append, List.mem_cons, List.mem_append,
    List.mem_map, List.mem_range]
  refine ⟨?_, ?_, List.nodup_range.map (injective 1), List.nodup_range.map (injective 2), ?_⟩
  · rintro (ends | ⟨j, -, odd⟩ | ⟨j, -, between⟩) <;> omega
  · rintro (⟨j, below, odd⟩ | ⟨j, below, between⟩) <;> omega
  · rintro _ ⟨i, -, rfl⟩ _ ⟨j, -, rfl⟩
    omega

/-- Each node is visited once. -/
theorem order_perm (even : Even n) (two_le : 2 ≤ n) : (order n).Perm (List.range (n + 1)) :=
  (List.perm_ext_iff_of_nodup (nodup_order even two_le) List.nodup_range).mpr fun i => by
    rw [mem_order_iff even two_le, List.mem_range, Nat.lt_succ_iff]

/-- A loop over every other node adds its samples with their weight. -/
theorem addSamples_eq [LawfulMonad m] (f : ℚ → m ℚ) (a h : ℚ) {w : ℕ → ℚ} {common : ℕ}
    {count i : ℕ} (same : ∀ j < count, w (i + 2 * j) = common) (sum : ℚ) :
    addSamples f a h common count i sum =
      (fun terms => sum + terms.sum) <$>
        ((List.range count).map (i + 2 * ·)).mapM fun j => (w j * ·) <$> f (a + j * h) := by
  induction count generalizing i sum with
  | zero => simp [addSamples]
  | succ count ih =>
      have first : w i = common := same 0 (Nat.succ_pos count)
      have rest : ∀ j < count, w (i + 2 + 2 * j) = common := fun j below => by
        rw [add_assoc, add_comm 2, ← Nat.mul_succ]
        exact same (j + 1) (Nat.succ_lt_succ below)
      have shifted : (List.range (count + 1)).map (i + 2 * ·) =
          i :: (List.range count).map (i + 2 + 2 * ·) := by
        rw [List.range_succ_eq_map, List.map_cons, List.map_map]
        congr 1
        exact List.map_congr_left fun j _ => by simp only [Function.comp]; omega
      rw [addSamples, shifted, List.mapM_cons]
      simp only [ih rest, first, map_eq_pure_bind, bind_assoc, pure_bind,
        List.sum_cons, add_assoc]
      rfl

/-- The samples are taken in the order of the visits, and each enters with the weight of its node. -/
theorem simpson_eq_mapM [LawfulMonad m] (pos : n ≠ 0) (f : ℚ → m ℚ) (a b : ℚ) :
    simpson f a b n =
      (fun terms => (b - a) / n / 3 * terms.sum) <$>
        (order n).mapM fun i => (weight n i * ·) <$> f (node a b n i) := by
  have weightOdd : ∀ j < n / 2, weight n (1 + 2 * j) = (4 : ℕ) := fun j below =>
    weight_odd (by omega) (by omega)
  have weightBetween : ∀ j < n / 2 - 1, weight n (2 + 2 * j) = (2 : ℕ) := fun j below =>
    weight_between (by omega) (by omega) (by omega)
  have odd := addSamples_eq f a ((b - a) / n) weightOdd
  have between := addSamples_eq f a ((b - a) / n) weightBetween
  change (do
    let first ← f a
    let last ← f b
    let odd ← addSamples f a ((b - a) / n) 4 (n / 2) 1 (first + last)
    let sum ← addSamples f a ((b - a) / n) 2 (n / 2 - 1) 2 odd
    pure (sum * ((b - a) / n) / (3 : ℕ))) = _
  simp only [odd, between, order, List.mapM_cons, List.mapM_append, node_zero, node_last a b pos,
    weight_zero, weight_last, one_mul, map_eq_pure_bind, bind_assoc, pure_bind, List.sum_cons, List.sum_append]
  refine bind_congr fun first => bind_congr fun last => bind_congr fun odd =>
    bind_congr fun rest => ?_
  congr 1
  push_cast
  ring

/-- The value of the formula for samples without effects. -/
def value (f : ℚ → ℚ) (a b : ℚ) (n : ℕ) : ℚ := Id.run (simpson (fun x => pure (f x)) a b n)

theorem value_eq_sum (even : Even n) (two_le : 2 ≤ n) (f : ℚ → ℚ) (a b : ℚ) :
    value f a b n =
      (b - a) / n / 3 * ∑ i ∈ range (n + 1), weight n i * f (node a b n i) := by
  have visits : ((order n).map fun i => weight n i * f (node a b n i)).sum =
      ∑ i ∈ range (n + 1), weight n i * f (node a b n i) := by
    rw [((order_perm even two_le).map _).sum_eq, ← List.sum_toFinset _ List.nodup_range,
      List.toFinset_range]
  have samples : ((order n).mapM fun i => (weight n i * ·) <$> (pure (f (node a b n i)) : Id ℚ)) =
      pure ((order n).map fun i => weight n i * f (node a b n i)) := List.mapM_pure
  rw [value, simpson_eq_mapM (by omega), samples, map_pure, visits]
  rfl

theorem value_swap (even : Even n) (two_le : 2 ≤ n) (f : ℚ → ℚ) (a b : ℚ) :
    value f b a n = -value f a b n := by
  have same : ∑ i ∈ range (n + 1), weight n i * f (node b a n i) =
      ∑ i ∈ range (n + 1), weight n i * f (node a b n i) := by
    rw [← sum_flip fun i => weight n i * f (node a b n i)]
    refine sum_congr rfl fun i mem => ?_
    have le : i ≤ n := Nat.lt_succ_iff.mp (mem_range.mp mem)
    rw [weight_swap even le, node_swap (by omega) le]
  rw [value_eq_sum even two_le, value_eq_sum even two_le, same]
  ring

/-- Up to a node that is not the last, an even node counts half for the panel on either side. -/
theorem sum_weighted_add_eq_panels {k : ℕ} (le : 2 * k + 2 ≤ n) (y : ℕ → ℚ) :
    ∑ i ∈ range (2 * k + 2), weight n i * y i + y (2 * k + 2) =
      ∑ j ∈ range (k + 1), (y (2 * j) + 4 * y (2 * j + 1) + y (2 * j + 2)) := by
  induction k with
  | zero =>
      have middle : weight n 1 = 4 := weight_odd (by omega) rfl
      simp [sum_range_succ, middle]
  | succ k ih =>
      have between : weight n (2 * k + 2) = 2 :=
        weight_between (by omega) (by omega) (by omega)
      have middle : weight n (2 * k + 3) = 4 := weight_odd (by omega) (by omega)
      rw [sum_range_succ _ (k + 1), ← ih (by omega), Nat.mul_succ, sum_range_succ, sum_range_succ,
        between, middle]
      ring

/-- The ends of a panel count once and its middle four times. -/
theorem sum_weighted_eq_panels (k : ℕ) (y : ℕ → ℚ) :
    ∑ i ∈ range (2 * k + 3), weight (2 * k + 2) i * y i =
      ∑ j ∈ range (k + 1), (y (2 * j) + 4 * y (2 * j + 1) + y (2 * j + 2)) := by
  rw [sum_range_succ, weight_last, one_mul, sum_weighted_add_eq_panels le_rfl]

open Polynomial

/-- A primitive of a polynomial of degree at most three. -/
def primitive (p : ℚ[X]) (x : ℚ) : ℚ := ∑ i ∈ range 4, p.coeff i * (x ^ (i + 1) / (i + 1))

/-- On one panel the formula gives the increase of the primitive. -/
theorem panel_eq_sub_primitive {p : ℚ[X]} (degree : p.natDegree ≤ 3) (x h : ℚ) :
    h / 3 * (p.eval x + 4 * p.eval (x + h) + p.eval (x + 2 * h)) =
      primitive p (x + 2 * h) - primitive p x := by
  simp only [primitive, eval_eq_sum_range' (Nat.lt_succ_of_le degree), sum_range_succ, sum_range_zero]
  push_cast
  ring

theorem integral_eq_sub_primitive {p : ℚ[X]} (degree : p.natDegree ≤ 3) (a b : ℚ) :
    ∫ x in (a : ℝ)..b, aeval x p = ((primitive p b - primitive p a : ℚ) : ℝ) := by
  have integrable (i : ℕ) : IntervalIntegrable (fun x : ℝ => (p.coeff i : ℝ) * x ^ i)
      MeasureTheory.volume a b :=
    (continuous_const.mul (continuous_pow i)).intervalIntegrable _ _
  simp only [aeval_eq_sum_range' (Nat.lt_succ_of_le degree), Algebra.smul_def, eq_ratCast]
  rw [intervalIntegral.integral_finsetSum fun i _ => integrable i]
  simp only [intervalIntegral.integral_const_mul, integral_pow, primitive]
  push_cast
  rw [← sum_sub_distrib]
  refine sum_congr rfl fun i _ => ?_
  ring

/-- The increases on the panels add up to that between the bounds. -/
theorem value_eq_sub_primitive (even : Even n) (two_le : 2 ≤ n) {p : ℚ[X]}
    (degree : p.natDegree ≤ 3) (a b : ℚ) :
    value (fun x => p.eval x) a b n = primitive p b - primitive p a := by
  obtain ⟨k, rfl⟩ : ∃ k, n = 2 * k + 2 := by
    obtain ⟨k, rfl⟩ := even
    exact ⟨k - 1, by omega⟩
  set h := (b - a) / (2 * k + 2 : ℕ) with step
  have panel (j : ℕ) : h / 3 * (p.eval (node a b (2 * k + 2) (2 * j)) +
      4 * p.eval (node a b (2 * k + 2) (2 * j + 1)) + p.eval (node a b (2 * k + 2) (2 * j + 2))) =
        primitive p (node a b (2 * k + 2) (2 * (j + 1))) -
          primitive p (node a b (2 * k + 2) (2 * j)) := by
    have middle : node a b (2 * k + 2) (2 * j + 1) = node a b (2 * k + 2) (2 * j) + h := by
      rw [node_add, ← step, Nat.cast_one, one_mul]
    have last : node a b (2 * k + 2) (2 * j + 2) = node a b (2 * k + 2) (2 * j) + 2 * h := by
      rw [node_add, ← step, Nat.cast_ofNat]
    rw [Nat.mul_succ, middle, last, panel_eq_sub_primitive degree]
  calc value (fun x => p.eval x) a b (2 * k + 2)
    _ = ∑ j ∈ range (k + 1), (primitive p (node a b (2 * k + 2) (2 * (j + 1))) -
          primitive p (node a b (2 * k + 2) (2 * j))) := by
      rw [value_eq_sum even two_le,
        sum_weighted_eq_panels k fun i => p.eval (node a b (2 * k + 2) i), mul_sum]
      exact sum_congr rfl fun j _ => panel j
    _ = primitive p b - primitive p a := by
      rw [sum_range_sub fun j => primitive p (node a b (2 * k + 2) (2 * j)), mul_zero, node_zero,
        Nat.mul_succ, node_last a b (Nat.succ_ne_zero _)]

theorem integralWith_eq_simpson (even : Even n) (two_le : 2 ≤ n) (text variableName : String)
    (a b : Float) :
    integralWith text variableName a b n = simpson (sample text variableName) a b n := by
  have notOdd : ¬ n % 2 = 1 := by
    rw [Nat.even_iff.mp even]
    decide
  rw [integralWith, if_neg two_le.not_gt, if_neg notOdd]

/-- For every even number of intervals from two on, the integral of a text is the formula. With exact
rational numbers the formula visits each node once, whatever effects the samples have, and adds up the
samples with their weights. Its value changes its sign with the order of the bounds, and for polynomials
of degree at most three it is the integral. -/
theorem composite_rule (even : Even n) (two_le : 2 ≤ n) (a b : ℚ) :
    (∀ text variableName (x y : Float),
      integralWith text variableName x y n = simpson (sample text variableName) x y n) ∧
    (order n).Perm (List.range (n + 1)) ∧
    (∀ (m : Type → Type) [Monad m] [LawfulMonad m] (f : ℚ → m ℚ),
      simpson f a b n = (fun terms => (b - a) / n / 3 * terms.sum) <$>
        (order n).mapM fun i => (weight n i * ·) <$> f (a + i * ((b - a) / n))) ∧
    (∀ f : ℚ → ℚ,
      value f a b n =
        (b - a) / n / 3 * ∑ i ∈ range (n + 1), weight n i * f (a + i * ((b - a) / n)) ∧
      value f b a n = -value f a b n) ∧
    ∀ p : ℚ[X], p.natDegree ≤ 3 →
      (value (fun x => p.eval x) a b n : ℝ) = ∫ x in (a : ℝ)..b, aeval x p := by
  refine ⟨integralWith_eq_simpson even two_le, order_perm even two_le, ?_, ?_, ?_⟩
  · intro m _ _ f
    exact simpson_eq_mapM (by omega) f a b
  · intro f
    exact ⟨value_eq_sum even two_le f a b, value_swap even two_le f a b⟩
  · intro p degree
    rw [integral_eq_sub_primitive degree, value_eq_sub_primitive even two_le degree]

/-- The polynomial `x ^ 3 + 1` on four intervals from two down to zero. -/
theorem composite_rule_descending :
    Even 4 ∧ 2 ≤ 4 ∧ (X ^ 3 + 1 : ℚ[X]).natDegree ≤ 3 ∧
    value (fun x => x ^ 3 + 1) 2 0 4 = -6 ∧
    (value (fun x => (X ^ 3 + 1 : ℚ[X]).eval x) 2 0 4 : ℝ) =
      ∫ x in (2 : ℝ)..0, aeval x (X ^ 3 + 1 : ℚ[X]) := by
  have even : Even 4 := by decide
  have degree : (X ^ 3 + 1 : ℚ[X]).natDegree ≤ 3 := by compute_degree
  obtain ⟨-, -, -, plain, cubic⟩ := composite_rule even (by decide) 2 0
  refine ⟨even, by decide, degree, ?_, ?_⟩
  · rw [(plain _).1]
    norm_num [sum_range_succ, weight]
  · simpa using cubic _ degree

end SeriesCalculator.Simpson
