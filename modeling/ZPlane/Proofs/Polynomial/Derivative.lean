import Mathlib
import ZPlane.Proofs.Complex.Ring
import ZPlane.Proofs.Polynomial.Eval

/-!
# Derivatives

The value and the first two derivatives of a polynomial are summed in one pass over its
coefficients, with three running powers.  The two lower ones start at zero, as there is no power
below the constant one; `Powers` says that they are right wherever their coefficient in a derivative
is not zero.
-/

open Polynomial

namespace ZPlane

namespace Polynomial

section Passes

variable {κ : Type} [CommRing κ] {x p₀ p₁ p₂ : κ} {k : ℕ}

/-- The powers that the pass has at the `k`th coefficient, the lower ones up to the factors that
they are taken with. -/
structure Powers (x : κ) (k : ℕ) (p₀ p₁ p₂ : κ) : Prop where
  here : p₀ = x ^ k
  below : (k : κ) * p₁ = k * x ^ (k - 1)
  lowest : ((k * (k - 1) : ℕ) : κ) * p₂ = (k * (k - 1) : ℕ) * x ^ (k - 2)

/-- At the constant coefficient the lower powers are not needed. -/
theorem Powers.zero (x : κ) : Powers x 0 1 0 0 where
  here := (pow_zero x).symm
  below := by rw [Nat.cast_zero, zero_mul, zero_mul]
  lowest := by rw [Nat.zero_mul, Nat.cast_zero, zero_mul, zero_mul]

/-- One multiplication takes all three powers to the next coefficient. -/
theorem Powers.succ (h : Powers x k p₀ p₁ p₂) : Powers x (k + 1) (p₀ * x) p₀ p₁ where
  here := by rw [h.here, pow_succ]
  below := by rw [h.here, Nat.add_sub_cancel]
  lowest := by
    rw [Nat.add_sub_cancel, Nat.cast_mul, mul_assoc, h.below, mul_assoc]
    rfl

/-- What a pass over `cs` from the `k`th coefficient on adds are the value and the derivatives of
the rest of the polynomial. -/
theorem addTerms_eq (h : Powers x k p₀ p₁ p₂) (cs : List κ) (s : Jet κ) :
    let f := X ^ k * (⟨cs⟩ : Polynomial κ).formal
    addTerms x k cs p₀ p₁ p₂ s = ⟨s.value + f.eval x, s.first + (derivative f).eval x,
      s.second + (derivative (derivative f)).eval x⟩ := by
  induction cs generalizing k p₀ p₁ p₂ s with
  | nil => simp [addTerms]
  | cons c cs ih =>
      have hsplit : X ^ k * (⟨c :: cs⟩ : Polynomial κ).formal =
          C c * X ^ k + X ^ (k + 1) * (⟨cs⟩ : Polynomial κ).formal := by
        rw [formal_cons]
        ring
      have hvalue : (C c * X ^ k).eval x = c * p₀ := by
        rw [eval_C_mul, eval_X_pow, h.here]
      have hfirst : (derivative (C c * X ^ k)).eval x = k * c * p₁ := by
        rw [derivative_C_mul_X_pow, eval_C_mul, eval_X_pow, mul_assoc, ← h.below]
        ring
      have hsecond : (derivative (derivative (C c * X ^ k))).eval x =
          ((k * (k - 1) : ℕ) : κ) * c * p₂ := by
        rw [derivative_C_mul_X_pow, derivative_C_mul_X_pow, eval_C_mul, eval_X_pow, Nat.sub_sub,
          mul_assoc c, ← Nat.cast_mul, mul_assoc c, ← h.lowest]
        ring
      dsimp only at ih ⊢
      rw [addTerms, ih h.succ, hsplit, map_add, map_add, eval_add, eval_add, eval_add, hvalue,
        hfirst, hsecond, add_assoc, add_assoc, add_assoc]

/-- The pass gives the value and the first two derivatives. -/
theorem jet_eq (p : Polynomial κ) (x : κ) : p.jet x = ⟨p.eval x, (derivative p.formal).eval x,
    (derivative (derivative p.formal)).eval x⟩ := by
  rw [jet, addTerms_eq (Powers.zero x), pow_zero, one_mul, zero_add, zero_add, zero_add,
    eval_formal]

end Passes

/-- The pass over the coefficients gives the value by Horner's rule and the values of the formal
first and second derivatives, at the origin too. -/
theorem jet_eq_derivatives {α : Type} [CommRing α] (p : Polynomial (Complex α)) (x : Complex α) :
    (∀ k, p.formal.coeff k = p.coeffs.getD k 0) ∧ (p.jet x).value = p.eval x ∧
      (p.jet x).first = (derivative p.formal).eval x ∧
      (p.jet x).second = (derivative (derivative p.formal)).eval x := by
  have hjet := jet_eq p x
  refine ⟨coeff_formal p.coeffs, ?_, ?_, ?_⟩
  · exact congrArg Jet.value hjet
  · exact congrArg Jet.first hjet
  · exact congrArg Jet.second hjet

/-- A cubic polynomial at the origin, where the running powers are zero from the second on. -/
example : let f := (⟨[⟨5, 0⟩, ⟨-2, 0⟩, ⟨0, 1⟩, ⟨1, 0⟩]⟩ : Polynomial (Complex ℤ)).jet 0
    f.value = ⟨5, 0⟩ ∧ f.first = ⟨-2, 0⟩ ∧ f.second = ⟨0, 2⟩ := by decide

end Polynomial

end ZPlane
