import Mathlib
import ZPlane.Proofs.Polynomial.Halley

/-!
# Linear polynomials

A Halley step on a linear polynomial leads from any point to its root (`halleyStep_linear`).  So the
second step of a trial has no length: the first trial finds the root, from wherever it starts and in
two steps at most.  A solver that asks for no steps is an exception, since the ratio of the steps
counts as one before there are any, and its trials end without one.
-/

open Polynomial

namespace ZPlane

namespace Polynomial

section Formal

variable {κ : Type} [CommRing κ]

theorem formal_zeros (n : ℕ) : (⟨List.replicate n 0⟩ : Polynomial κ).formal = 0 := by
  induction n with
  | zero => rfl
  | succ n ih => rw [List.replicate_succ, formal_cons, ih, zero_mul, C_0, add_zero]

/-- The polynomial `a + b x`, with any number of zeros above its two coefficients. -/
def linear (a b : κ) (zeros : ℕ) : Polynomial κ := ⟨a :: b :: List.replicate zeros 0⟩

theorem degree_linear (a b : κ) (zeros : ℕ) : (linear a b zeros).degree ≠ 0 :=
  Nat.succ_ne_zero _

/-- Zeros at the top do not change the polynomial. -/
theorem formal_linear (a b : κ) (zeros : ℕ) : (linear a b zeros).formal = C b * X + C a := by
  rw [linear, formal_cons, formal_cons, formal_zeros, zero_mul, zero_add]

theorem jet_linear (a b : κ) (zeros : ℕ) (x : κ) :
    (linear a b zeros).jet x = ⟨b * x + a, b, 0⟩ := by
  rw [jet_eq, ← eval_formal, formal_linear]
  simp

end Formal

/-- One step reaches the root from any point. -/
theorem halleyStep_linear {b : Complex ℝ} (hb : b ≠ 0) (a x : Complex ℝ) (zeros : ℕ) :
    (linear a b zeros).halleyStep x = -a / b := by
  have hdenominator : (2 : ℕ) * b * b ≠ 0 := mul_ne_zero (mul_ne_zero Complex.two_ne hb) hb
  rw [halleyStep, jet_linear]
  dsimp only
  rw [mul_zero, sub_zero]
  apply mul_right_cancel₀ hdenominator
  calc
    (x - (2 : ℕ) * (b * x + a) * b / ((2 : ℕ) * b * b)) * ((2 : ℕ) * b * b)
        = x * ((2 : ℕ) * b * b) - (2 : ℕ) * (b * x + a) * b := by
          rw [sub_mul, Complex.div_mul_cancel _ hdenominator]
    _ = -a * ((2 : ℕ) * b) := by ring
    _ = -a / b * b * ((2 : ℕ) * b) := by rw [Complex.div_mul_cancel _ hb]
    _ = -a / b * ((2 : ℕ) * b * b) := by ring

end Polynomial

namespace Solver

section Trials

variable {α : Type} [Zero α] [One α] [Add α] [Sub α] [Mul α] [Div α] [NatCast α]
  [LT α] [DecidableLT α] [Scalar α] {s : Solver α} {p : Polynomial (Complex α)} {draws : ℕ → α}
  {k n : ℕ} {r : Complex α}

/-- If the first trial converges, its root is the one that is found, after four draws. -/
theorem findRoot_of_trial (hdegree : p.degree ≠ 0) (htrials : 1 ≤ s.maxTrials)
    (h : s.trial passLimit p (trialPoint draws k) = .converged r n) :
    s.findRoot p draws k = .ok (r, k + 4) := by
  obtain ⟨trials, htrials⟩ := Nat.exists_eq_add_of_le' htrials
  rw [findRoot, if_neg hdegree, htrials, firstRoot, h]

/-- Without steps no trial converges, unless a ratio of one is small enough to go on. -/
theorem findRoot_without_steps (hdegree : p.degree ≠ 0) (hsteps : s.minIterations = 0)
    (hratio : ¬ 1 < s.stallRatio) :
    s.findRoot p draws k = .error (.nonConvergence s.maxTrials) := by
  have hstop : ¬ (0 < s.minIterations ∨ decide (1 < s.stallRatio) = true) := by
    simp [hsteps, hratio]
  have hfail (j : ℕ) (r : Complex α) : ¬ s.Converges p draws j r := by
    rintro ⟨n, hn⟩
    cases (iterate_of_stalled hstop (passLimit - 1)).symm.trans hn
  rcases s.findRoot_cases draws k (Nat.lt_of_sub_ne_zero hdegree) with ⟨_, _, hfirst, -⟩ | ⟨-, h⟩
  · exact absurd hfirst.converges (hfail _ _)
  · exact h

end Trials

section Real

variable {s : Solver ℝ} {p : Polynomial (Complex ℝ)} {r : Complex ℝ}

/-- If all steps lead to one point, a trial accepts the first of them or the second, which has no
length. -/
theorem exists_trial_of_constant (hstep : ∀ x, p.halleyStep x = r) (htolerance : 0 < s.tolerance)
    (hratio : 0 < s.stallRatio) (hsteps : 1 ≤ s.minIterations) (x : Complex ℝ) :
    ∃ n ≤ 2, s.trial passLimit p x = .converged r n := by
  have hfirst : 0 < s.minIterations ∨ decide (1 < s.stallRatio) = true := .inl hsteps
  by_cases hshort : (x - p.halleyStep x).norm < s.tolerance
  · refine ⟨1, Nat.le_succ 1, ?_⟩
    rw [← hstep x]
    exact iterate_of_short hfirst rfl hshort (passLimit - 1)
  · refine ⟨2, le_rfl, ?_⟩
    have hshrinks : s.shrinks none (x - p.halleyStep x).norm = true := by
      simp [shrinks, Scalar.isFinite, hratio]
    calc
      s.trial passLimit p x
          = s.iterate p (passLimit - 1) 1 (p.halleyStep x) (some (x - p.halleyStep x).norm)
              (s.shrinks none (x - p.halleyStep x).norm) :=
            iterate_of_long hfirst rfl hshort (passLimit - 1)
      _ = s.iterate p (passLimit - 1) 1 r (some (x - r).norm) true := by rw [hshrinks, hstep x]
      _ = .converged r 2 :=
            iterate_of_halleyStep_eq (hstep r) htolerance (.inr rfl) (passLimit - 2)

/-- A solver that asks for a step finds the root of a linear polynomial in its first trial, whatever
the draws are, and in two steps at most.  One that asks for none takes none and does not find it. -/
theorem findRoot_linear (s : Solver ℝ) (a : Complex ℝ) {b : Complex ℝ} (hb : b ≠ 0) (zeros : ℕ)
    (htrials : 1 ≤ s.maxTrials) (htolerance : 0 < s.tolerance) (hratio : 0 < s.stallRatio)
    (hone : s.stallRatio < 1) (draws : ℕ → ℝ) (k : ℕ) :
    let p := Polynomial.linear a b zeros
    (1 ≤ s.minIterations →
      (∃ n ≤ 2, s.trial passLimit p (trialPoint draws k) = .converged (-a / b) n) ∧
        s.findRoot p draws k = .ok (-a / b, k + 4)) ∧
    (s.minIterations = 0 → s.findRoot p draws k = .error (.nonConvergence s.maxTrials)) := by
  intro p
  have hdegree : p.degree ≠ 0 := Polynomial.degree_linear a b zeros
  refine ⟨fun hsteps ↦ ?_, fun hsteps ↦ findRoot_without_steps hdegree hsteps hone.le.not_gt⟩
  have htrial := exists_trial_of_constant (fun x ↦ Polynomial.halleyStep_linear hb a x zeros)
    htolerance hratio hsteps (trialPoint draws k)
  obtain ⟨n, -, hn⟩ := id htrial
  exact ⟨htrial, findRoot_of_trial hdegree htrials hn⟩

/-- From the origin, with one step that is taken in any case: it is long, and a second one is taken
to see that it led to the root. -/
theorem findRoot_linear_from_origin :
    let s : Solver ℝ := ⟨1e-10, 1, 1, 1 / 2⟩
    let p : Polynomial (Complex ℝ) := .linear ⟨1, -2⟩ ⟨0, 2⟩ 1
    (⟨0, 2⟩ : Complex ℝ) ≠ 0 ∧ 1 ≤ s.maxTrials ∧ 0 < s.tolerance ∧ 0 < s.stallRatio ∧
      s.stallRatio < 1 ∧ 1 ≤ s.minIterations ∧
      (∃ n ≤ 2, s.trial passLimit p (trialPoint (fun _ ↦ 0) 0) = .converged ⟨1, 1 / 2⟩ n) ∧
      s.findRoot p (fun _ ↦ 0) 0 = .ok (⟨1, 1 / 2⟩, 4) := by
  intro s p
  have hb : (⟨0, 2⟩ : Complex ℝ) ≠ 0 := fun h ↦ two_ne_zero (congrArg Complex.im h)
  have htolerance : 0 < s.tolerance := by norm_num [s]
  have hratio : 0 < s.stallRatio := by norm_num [s]
  have hone : s.stallRatio < 1 := by norm_num [s]
  have hroot : -⟨1, -2⟩ / ⟨0, 2⟩ = (⟨1, 1 / 2⟩ : Complex ℝ) := by
    apply mul_right_cancel₀ hb
    rw [Complex.div_mul_cancel _ hb]
    ext <;> norm_num
  have hlinear := findRoot_linear s ⟨1, -2⟩ hb 1 le_rfl htolerance hratio hone (fun _ ↦ 0) 0
  have hfound := hlinear.1 le_rfl
  rw [hroot] at hfound
  exact ⟨hb, le_rfl, htolerance, hratio, hone, le_rfl, hfound⟩

/-- The settings are as before but for the number of steps, which is none. -/
theorem findRoot_linear_unstarted :
    let s : Solver ℝ := ⟨1e-10, 1, 0, 1 / 2⟩
    let p : Polynomial (Complex ℝ) := .linear ⟨1, -2⟩ ⟨0, 2⟩ 0
    (⟨0, 2⟩ : Complex ℝ) ≠ 0 ∧ 1 ≤ s.maxTrials ∧ 0 < s.tolerance ∧ 0 < s.stallRatio ∧
      s.stallRatio < 1 ∧ s.findRoot p (fun _ ↦ 0) 0 = .error (.nonConvergence 1) := by
  intro s p
  have hb : (⟨0, 2⟩ : Complex ℝ) ≠ 0 := fun h ↦ two_ne_zero (congrArg Complex.im h)
  have hone : s.stallRatio < 1 := by norm_num [s]
  exact ⟨hb, le_rfl, by norm_num [s], by norm_num [s], hone,
    findRoot_without_steps (Polynomial.degree_linear _ _ _) rfl hone.le.not_gt⟩

end Real

end Solver

end ZPlane
