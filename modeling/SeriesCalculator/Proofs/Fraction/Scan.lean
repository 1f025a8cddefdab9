import Mathlib.Data.Nat.GCD.Basic
import SeriesCalculator.Fraction.Reduction
import SeriesCalculator.Proofs.Iteration

/-!
# Trial division reaches lowest terms

The reduction of two magnitudes is a loop over trials. A trial either divides both magnitudes by the
divisor and begins again at two, or goes on to the next divisor. At every trial the magnitudes are
the first ones divided by a common factor, and no number below the divisor divides both of them
(`Reduces`). The second part is what the restart is for: after a division it holds again only below
two. When the divisor has passed one of the magnitudes, or one of them is one, nothing is left that
could divide both, so the common factor was the greatest one (`lowestTerms_eq`).

Every trial makes twice the smaller magnitude, less the divisor, smaller.
-/

namespace SeriesCalculator.Fraction

/-- Where a trial division stands. -/
structure Scan where
  divisor : Nat
  a : Nat
  b : Nat
  two_le : 2 ≤ divisor

namespace Scan

theorem two_le_first : 2 ≤ 2 := Nat.le_refl 2

/-- Two magnitudes of which nothing has been tried yet. -/
def start (a b : Nat) : Scan := { divisor := 2, a, b, two_le := two_le_first }

/-- The same magnitudes before the next divisor. -/
def advance (s : Scan) : Scan :=
  { s with divisor := s.divisor + 1, two_le := Nat.le_succ_of_le s.two_le }

/-- One trial, if another one is due. -/
def step (s : Scan) : Option Scan :=
  if Tries s.divisor s.a s.b then
    if s.a % s.divisor = 0 ∧ s.b % s.divisor = 0 then
      some (start (s.a / s.divisor) (s.b / s.divisor))
    else some s.advance
  else none

/-- What the remaining trials lead to. -/
def result (s : Scan) : Nat × Nat := divideOut s.divisor s.a s.b s.two_le

variable {s t : Scan}

theorem step_eq_none_iff : s.step = none ↔ ¬ Tries s.divisor s.a s.b := by
  rw [step]
  split
  · split <;> simp [*]
  · simp [*]

/-- A trial is a division of both magnitudes or the step to the next divisor. -/
theorem step_cases (h : s.step = some t) :
    Tries s.divisor s.a s.b ∧
      ((s.divisor ∣ s.a ∧ s.divisor ∣ s.b ∧ t = start (s.a / s.divisor) (s.b / s.divisor)) ∨
        (¬ (s.divisor ∣ s.a ∧ s.divisor ∣ s.b) ∧ t = s.advance)) := by
  simp only [step, ← Nat.dvd_iff_mod_eq_zero] at h
  split at h
  · rename_i due
    refine ⟨due, ?_⟩
    split at h
    · rename_i common
      exact .inl ⟨common.1, common.2, (Option.some.inj h).symm⟩
    · rename_i uncommon
      exact .inr ⟨uncommon, (Option.some.inj h).symm⟩
  · cases h

theorem result_of_step (h : s.step = some t) : s.result = t.result := by
  rw [result, divideOut]
  rw [step] at h
  split at h
  · rename_i due
    rw [dif_pos due]
    split at h
    · rename_i common
      cases h
      exact if_pos common
    · rename_i uncommon
      cases h
      exact if_neg uncommon
  · cases h

theorem result_of_step_eq_none (h : s.step = none) : s.result = (s.a, s.b) := by
  rw [result, divideOut, dif_neg (step_eq_none_iff.mp h)]

/-- The number of trials that are left at most. -/
def trialsLeft (s : Scan) : Nat := 2 * min s.a s.b - s.divisor

theorem trialsLeft_lt (h : s.step = some t) : t.trialsLeft < s.trialsLeft := by
  obtain ⟨⟨leA, leB, -, -⟩, ⟨-, -, rfl⟩ | ⟨-, rfl⟩⟩ := step_cases h
  · have two_le := s.two_le
    have halfA : s.a / s.divisor ≤ s.a / 2 := Nat.div_le_div_left two_le (by decide)
    have halfB : s.b / s.divisor ≤ s.b / 2 := Nat.div_le_div_left two_le (by decide)
    simp only [trialsLeft, start]
    omega
  · have two_le := s.two_le
    simp only [trialsLeft, advance]
    omega

/-- Twice the smaller magnitude is enough for the number of trials. -/
theorem trials_le {trials a b : Nat} (run : Iterates step trials (start a b) s) :
    trials ≤ 2 * min a b := by
  have bound := run.add_measure_le trialsLeft_lt
  simp only [trialsLeft, start] at bound
  omega

/-- The reduction of two magnitudes ends with those of the last trial. -/
theorem exists_end (a b : Nat) :
    ∃ trials last, Iterates step trials (start a b) last ∧ last.step = none ∧
      lowestTerms a b = (last.a, last.b) := by
  obtain ⟨trials, last, run, ended⟩ := Iterates.exists_end trialsLeft_lt (start a b)
  exact ⟨trials, last, run, ended,
    (run.apply_eq result_of_step).trans (result_of_step_eq_none ended)⟩

/-- The magnitudes and the divisor stay within a limit. -/
structure Within (limit : Nat) (s : Scan) : Prop where
  a_le : s.a ≤ limit
  b_le : s.b ≤ limit
  divisor_le : s.divisor ≤ max 2 (limit + 1)

theorem Within.step {limit : Nat} (trial : s.step = some t) (h : s.Within limit) :
    t.Within limit := by
  obtain ⟨⟨leA, -, -, -⟩, ⟨-, -, rfl⟩ | ⟨-, rfl⟩⟩ := step_cases trial
  · exact {
      a_le := Nat.le_trans (Nat.div_le_self _ _) h.a_le
      b_le := Nat.le_trans (Nat.div_le_self _ _) h.b_le
      divisor_le := Nat.le_max_left _ _ }
  · have divisor_le : s.divisor ≤ limit := Nat.le_trans leA h.a_le
    exact {
      a_le := h.a_le
      b_le := h.b_le
      divisor_le := Nat.le_trans (Nat.succ_le_succ divisor_le) (Nat.le_max_right _ _) }

theorem within_of_iterates {limit trials a b : Nat} (leA : a ≤ limit) (leB : b ≤ limit)
    (run : Iterates step trials (start a b) s) : s.Within limit :=
  run.invariant Within.step
    { a_le := leA, b_le := leB, divisor_le := Nat.le_max_left _ _ }

/-- The magnitudes are `a` and `b` divided by a common factor, and of the numbers below the divisor
none divides both of them. -/
structure Reduces (a b : Nat) (s : Scan) : Prop where
  scale : ∃ factor, a = factor * s.a ∧ b = factor * s.b
  tried : ∀ d, 2 ≤ d → d < s.divisor → ¬ (d ∣ s.a ∧ d ∣ s.b)

theorem reduces_start (a b : Nat) : Reduces a b (start a b) where
  scale := ⟨1, (Nat.one_mul a).symm, (Nat.one_mul b).symm⟩
  tried _ two_le lt := absurd lt (Nat.not_lt.mpr two_le)

namespace Reduces

variable {a b : Nat}

/-- After a division nothing has been tried again yet; otherwise the divisor itself joins what has
been tried. -/
theorem step (trial : s.step = some t) (h : Reduces a b s) : Reduces a b t := by
  obtain ⟨factor, scaleA, scaleB⟩ := h.scale
  obtain ⟨-, ⟨dvdA, dvdB, rfl⟩ | ⟨uncommon, rfl⟩⟩ := step_cases trial
  · have fresh := reduces_start (s.a / s.divisor) (s.b / s.divisor)
    refine { scale := ⟨factor * s.divisor, ?_, ?_⟩, tried := fresh.tried }
    · change a = factor * s.divisor * (s.a / s.divisor)
      rw [Nat.mul_assoc, Nat.mul_div_cancel' dvdA, ← scaleA]
    · change b = factor * s.divisor * (s.b / s.divisor)
      rw [Nat.mul_assoc, Nat.mul_div_cancel' dvdB, ← scaleB]
  · refine { scale := h.scale, tried := ?_ }
    intro d two_le lt
    rcases Nat.lt_succ_iff_lt_or_eq.mp lt with below | rfl
    · exact h.tried d two_le below
    · exact uncommon

/-- A common divisor other than one would have been tried. -/
theorem coprime (h : Reduces a b s) (posA : 0 < a) (posB : 0 < b) (ended : s.step = none) :
    s.a.Coprime s.b := by
  obtain ⟨factor, rfl, rfl⟩ := h.scale
  have dvdA := Nat.gcd_dvd_left s.a s.b
  have dvdB := Nat.gcd_dvd_right s.a s.b
  have leA := Nat.le_of_dvd (Nat.pos_of_mul_pos_left posA) dvdA
  have leB := Nat.le_of_dvd (Nat.pos_of_mul_pos_left posB) dvdB
  have pos := Nat.gcd_pos_of_pos_left s.b (Nat.pos_of_mul_pos_left posA)
  by_contra other
  have two_le : 2 ≤ s.a.gcd s.b := by
    have : s.a.gcd s.b ≠ 1 := other
    omega
  have due : Tries s.divisor s.a s.b := by
    have untried : s.divisor ≤ s.a.gcd s.b :=
      Nat.not_lt.mp fun lt => h.tried _ two_le lt ⟨dvdA, dvdB⟩
    refine ⟨Nat.le_trans untried leA, Nat.le_trans untried leB, ?_, ?_⟩ <;> omega
  exact step_eq_none_iff.mp ended due

end Reduces

end Scan

/-- Trial division divides by the greatest common divisor. -/
theorem lowestTerms_eq {a b : Nat} (posA : 0 < a) (posB : 0 < b) :
    lowestTerms a b = (a / a.gcd b, b / a.gcd b) := by
  obtain ⟨trials, last, run, ended, terms⟩ := Scan.exists_end a b
  have reduces : Scan.Reduces a b last :=
    run.invariant Scan.Reduces.step (Scan.reduces_start a b)
  have coprime := reduces.coprime posA posB ended
  obtain ⟨factor, scaleA, scaleB⟩ := reduces.scale
  have gcd : a.gcd b = factor := by
    rw [scaleA, scaleB, Nat.gcd_mul_left, coprime.gcd_eq_one, Nat.mul_one]
  have pos : 0 < factor := gcd ▸ Nat.gcd_pos_of_pos_left b posA
  rw [terms, gcd, scaleA, scaleB, Nat.mul_div_cancel_left _ pos, Nat.mul_div_cancel_left _ pos]

end SeriesCalculator.Fraction
