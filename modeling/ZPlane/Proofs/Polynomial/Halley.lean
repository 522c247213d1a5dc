import Mathlib
import ZPlane.Proofs.Polynomial.Search

/-!
# Steps without length

In exact arithmetic a Halley step has no length where the polynomial is zero, and where its
derivative is (`halleyStep_eq_self_iff`).  A trial looks only at the lengths of its steps, so what a
search returns after a step without length is a root or a critical point (`findRoot_of_zero_step`),
and a critical point it is where a trial starts at one (`findRoot_at_critical_point`).
-/

open Polynomial

namespace ZPlane

theorem Complex.two_ne : ((2 : ℕ) : Complex ℝ) ≠ 0 := fun h ↦ two_ne_zero (congrArg re h)

namespace Polynomial

variable {p : Polynomial (Complex ℝ)} {x : Complex ℝ}

/-- What Halley's step divides by. -/
noncomputable def halleyDenominator (p : Polynomial (Complex ℝ)) (x : Complex ℝ) : Complex ℝ :=
  (2 : ℕ) * (derivative p.formal).eval x ^ 2 -
    p.eval x * (derivative (derivative p.formal)).eval x

/-- The step is Halley's, with the formal derivatives. -/
theorem halleyStep_eq (p : Polynomial (Complex ℝ)) (x : Complex ℝ) :
    p.halleyStep x =
      x - (2 : ℕ) * p.eval x * (derivative p.formal).eval x / p.halleyDenominator x := by
  rw [halleyStep, jet_eq, halleyDenominator, pow_two, ← mul_assoc]

/-- A step from `x` has no length if and only if `x` is a root or a critical point. -/
theorem halleyStep_eq_self_iff (hx : p.halleyDenominator x ≠ 0) :
    p.halleyStep x = x ↔ p.eval x = 0 ∨ (derivative p.formal).eval x = 0 := by
  rw [halleyStep_eq, sub_eq_self, Complex.div_eq_zero_iff hx, mul_eq_zero, mul_eq_zero,
    or_iff_right Complex.two_ne]

end Polynomial

namespace Solver

variable {s : Solver ℝ} {p : Polynomial (Complex ℝ)} {draws : ℕ → ℝ} {r x : Complex ℝ} {k k' : ℕ}

/-- A root that is found is where a step shorter than the tolerance led to. -/
theorem exists_step_of_findRoot (h : s.findRoot p draws k = .ok (r, k')) :
    ∃ y, p.halleyStep y = r ∧ (y - r).norm < s.tolerance := by
  have hp : 1 < p.coeffs.length := by
    by_contra hp
    have hdegree : p.degree = 0 := Nat.sub_eq_zero_of_le (not_lt.mp hp)
    rw [findRoot, if_pos hdegree] at h
    cases h
  rcases s.findRoot_cases draws k hp with ⟨i, r', hfirst, hfound⟩ | ⟨-, herror⟩
  · cases hfound.symm.trans h
    obtain ⟨n, hn⟩ := hfirst.converges
    obtain ⟨y, hy, -, hlength⟩ := exists_step_of_iterate hn
    exact ⟨y, hy, hlength⟩
  · cases herror.symm.trans h

/-- Numbers at distance zero are equal. -/
theorem eq_of_norm_sub_eq_zero {z w : Complex ℝ} (h : (z - w).norm = 0) : z = w := by
  have hsum : (z - w).re ^ 2 + (z - w).im ^ 2 = 0 :=
    (Real.sqrt_eq_zero (by positivity)).mp h
  exact sub_eq_zero.mp (Complex.eq_zero_of_sq_add_sq hsum)

/-- Where the denominator is not zero, a step has no length at roots and at critical points and
nowhere else.  So a search never returns, on a step without length, a point that is neither. -/
theorem findRoot_of_zero_step (s : Solver ℝ) (p : Polynomial (Complex ℝ)) :
    (∀ x, p.halleyDenominator x ≠ 0 →
      (p.halleyStep x = x ↔ p.eval x = 0 ∨ (derivative p.formal).eval x = 0)) ∧
    ∀ draws k r k', s.findRoot p draws k = .ok (r, k') →
      ∃ y, p.halleyStep y = r ∧ (y - r).norm < s.tolerance ∧
        ((y - r).norm = 0 → p.halleyDenominator y ≠ 0 →
          p.eval r = 0 ∨ (derivative p.formal).eval r = 0) := by
  refine ⟨fun x hx ↦ Polynomial.halleyStep_eq_self_iff hx, fun draws k r k' h ↦ ?_⟩
  obtain ⟨y, hy, hlength⟩ := exists_step_of_findRoot h
  refine ⟨y, hy, hlength, fun hzero hdenominator ↦ ?_⟩
  obtain rfl := eq_of_norm_sub_eq_zero hzero
  exact (Polynomial.halleyStep_eq_self_iff hdenominator).mp hy

/-- The origin is a critical point of `x ^ 2 + 1` but no root. -/
theorem findRoot_at_critical_point :
    let p : Polynomial (Complex ℝ) := ⟨[1, 0, 1]⟩
    1 ≤ p.degree ∧ p.halleyDenominator 0 ≠ 0 ∧ p.halleyStep 0 = 0 ∧ p.eval 0 ≠ 0 ∧
      Solver.standard.findRoot p (fun _ ↦ 0) 0 = .ok (0, 4) := by
  intro p
  have heval : p.eval 0 = 1 := by simp [p, Polynomial.eval]
  have hjet : p.jet 0 = ⟨1, 0, (2 : ℕ)⟩ := by
    simp [p, Polynomial.jet, Polynomial.addTerms]
  rw [Polynomial.jet_eq] at hjet
  have hfirst : (derivative p.formal).eval 0 = 0 := congrArg Polynomial.Jet.first hjet
  have hsecond : (derivative (derivative p.formal)).eval 0 = (2 : ℕ) :=
    congrArg Polynomial.Jet.second hjet
  have hdenominator : p.halleyDenominator 0 ≠ 0 := by
    rw [Polynomial.halleyDenominator, heval, hfirst, hsecond, zero_pow two_ne_zero, mul_zero,
      one_mul, zero_sub]
    exact neg_ne_zero.mpr Complex.two_ne
  have hstep : p.halleyStep 0 = 0 :=
    (Polynomial.halleyStep_eq_self_iff hdenominator).mpr (.inr hfirst)
  have hstart : trialPoint (fun _ ↦ (0 : ℝ)) 0 = 0 := by simp [trialPoint, spread]; rfl
  refine ⟨by decide, hdenominator, hstep, by rw [heval]; exact one_ne_zero, ?_⟩
  have hfound : Solver.standard.findRoot p (fun _ ↦ 0) 0 = .ok (trialPoint (fun _ ↦ 0) 0, 4) :=
    findRoot_of_halleyStep_eq (by decide) (by rw [hstart, hstep]) (by norm_num [standard])
      (by decide) (by decide)
  rwa [hstart] at hfound

end Solver

end ZPlane
