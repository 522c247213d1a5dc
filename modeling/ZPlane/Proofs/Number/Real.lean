import Mathlib
import ZPlane.Complex.Basic

/-!
# Real scalars

The algorithms in exact arithmetic.  Every real number is finite, and the tolerance is the one of
the binary64 scalars.
-/

namespace ZPlane

noncomputable instance : Scalar ℝ where
  abs x := |x|
  hypot x y := √(x ^ 2 + y ^ 2)
  power x y := x ^ y
  isFinite _ := true
  tolerance := 1e-9

theorem closeTo_zero_iff {x ε : ℝ} : closeTo x 0 ε = true ↔ |x| < ε := by
  rw [closeTo, decide_eq_true_iff, sub_zero]
  rfl

namespace Complex

/-- A number vanishes exactly if both of its parts are within the tolerance. -/
theorem isZero_iff {z : Complex ℝ} :
    z.isZero = true ↔ |z.re| < Scalar.tolerance ∧ |z.im| < Scalar.tolerance := by
  rw [isZero, isZeroWithin, Bool.and_eq_true, closeTo_zero_iff, closeTo_zero_iff]

theorem isOrigin_iff {z : Complex ℝ} : z.isOrigin = true ↔ z = 0 := by
  simp only [isOrigin, Bool.and_eq_true, decide_eq_true_eq, ← le_antisymm_iff]
  refine ⟨fun h ↦ ?_, fun h ↦ ?_⟩
  · exact congrArg₂ mk h.1 h.2
  · rw [h]
    exact ⟨rfl, rfl⟩

theorem norm_zero : (0 : Complex ℝ).norm = 0 := by
  show √((0 : ℝ) ^ 2 + 0 ^ 2) = 0
  simp

/-- A root and its conjugate vanish together. -/
theorem isZero_conj (z : Complex ℝ) : z.conj.isZero = z.isZero := by
  rw [Bool.eq_iff_iff, isZero_iff, isZero_iff, conj, abs_neg]

end Complex

end ZPlane
