import Mathlib
import ZPlane.Complex.Basic

/-!
# Complex numbers over exact scalars

Over a commutative ring of scalars the complex numbers are a commutative ring again, and over an
ordered one they have no zero divisors.  The sums, products and casts are those that the algorithms
use.
-/

namespace ZPlane

namespace Complex

variable {α : Type}

@[ext] theorem ext {z w : Complex α} (hre : z.re = w.re) (him : z.im = w.im) : z = w := by
  cases z
  cases w
  exact congrArg₂ mk hre him

section Parts

variable (z w : Complex α)

@[simp] theorem zero_re [Zero α] : (0 : Complex α).re = 0 := rfl
@[simp] theorem zero_im [Zero α] : (0 : Complex α).im = 0 := rfl
@[simp] theorem one_re [Zero α] [One α] : (1 : Complex α).re = 1 := rfl
@[simp] theorem one_im [Zero α] [One α] : (1 : Complex α).im = 0 := rfl
@[simp] theorem i_re [Zero α] [One α] : (i : Complex α).re = 0 := rfl
@[simp] theorem i_im [Zero α] [One α] : (i : Complex α).im = 1 := rfl
@[simp] theorem natCast_re [Zero α] [NatCast α] (n : ℕ) : (n : Complex α).re = n := rfl
@[simp] theorem natCast_im [Zero α] [NatCast α] (n : ℕ) : (n : Complex α).im = 0 := rfl
@[simp] theorem add_re [Add α] : (z + w).re = z.re + w.re := rfl
@[simp] theorem add_im [Add α] : (z + w).im = z.im + w.im := rfl
@[simp] theorem sub_re [Sub α] : (z - w).re = z.re - w.re := rfl
@[simp] theorem sub_im [Sub α] : (z - w).im = z.im - w.im := rfl
@[simp] theorem neg_re [Neg α] : (-z).re = -z.re := rfl
@[simp] theorem neg_im [Neg α] : (-z).im = -z.im := rfl

@[simp] theorem mul_re [Add α] [Sub α] [Mul α] : (z * w).re = z.re * w.re - z.im * w.im := rfl
@[simp] theorem mul_im [Add α] [Sub α] [Mul α] : (z * w).im = z.re * w.im + z.im * w.re := rfl

end Parts

variable [CommRing α]

instance instCommRing : CommRing (Complex α) where
  add_assoc _ _ _ := by ext <;> simp [add_assoc]
  zero_add _ := by ext <;> simp
  add_zero _ := by ext <;> simp
  add_comm _ _ := by ext <;> simp [add_comm]
  neg_add_cancel _ := by ext <;> simp
  sub_eq_add_neg _ _ := by ext <;> simp [sub_eq_add_neg]
  mul_assoc _ _ _ := by ext <;> simp <;> ring
  one_mul _ := by ext <;> simp
  mul_one _ := by ext <;> simp
  zero_mul _ := by ext <;> simp
  mul_zero _ := by ext <;> simp
  left_distrib _ _ _ := by ext <;> simp <;> ring
  right_distrib _ _ _ := by ext <;> simp <;> ring
  mul_comm _ _ := by ext <;> simp <;> ring
  natCast n := n
  natCast_zero := by ext <;> simp
  natCast_succ _ := by ext <;> simp
  intCast n := ⟨n, 0⟩
  intCast_ofNat _ := by ext <;> simp
  intCast_negSucc _ := by ext <;> simp
  nsmul := nsmulRec
  zsmul := zsmulRec

theorem i_mul_i : (i * i : Complex α) = -1 := by ext <;> simp

theorem zero_div {β : Type} [Field β] (z : Complex β) : 0 / z = 0 :=
  congrArg₂ mk (by simp) (by simp)

section Ordered

variable {β : Type} [CommRing β] [LinearOrder β] [IsStrictOrderedRing β]

/-- A number is zero if its parts' squares sum to zero. -/
theorem eq_zero_of_sq_add_sq {z : Complex β} (h : z.re ^ 2 + z.im ^ 2 = 0) : z = 0 := by
  have hparts := (add_eq_zero_iff_of_nonneg (sq_nonneg z.re) (sq_nonneg z.im)).mp h
  ext
  · exact pow_eq_zero_iff two_ne_zero |>.mp hparts.1
  · exact pow_eq_zero_iff two_ne_zero |>.mp hparts.2

instance instNoZeroDivisors : NoZeroDivisors (Complex β) where
  eq_zero_or_eq_zero_of_mul_eq_zero {z w} h := by
    have hre : z.re * w.re - z.im * w.im = 0 := congrArg re h
    have him : z.re * w.im + z.im * w.re = 0 := congrArg im h
    have hproduct : (z.re ^ 2 + z.im ^ 2) * (w.re ^ 2 + w.im ^ 2) = 0 := by
      calc (z.re ^ 2 + z.im ^ 2) * (w.re ^ 2 + w.im ^ 2)
          = (z.re * w.re - z.im * w.im) ^ 2 + (z.re * w.im + z.im * w.re) ^ 2 := by ring
        _ = 0 := by rw [hre, him, zero_pow two_ne_zero, add_zero]
    exact (mul_eq_zero.mp hproduct).imp eq_zero_of_sq_add_sq eq_zero_of_sq_add_sq

instance instNontrivial : Nontrivial (Complex β) :=
  ⟨0, 1, fun h ↦ zero_ne_one (congrArg re h)⟩

instance instIsDomain : IsDomain (Complex β) := NoZeroDivisors.to_isDomain _

end Ordered

section Division

variable {β : Type} [Field β] [LinearOrder β] [IsStrictOrderedRing β] {z w : Complex β}

/-- Division is the inverse of multiplication. -/
theorem div_mul_cancel (z : Complex β) (hw : w ≠ 0) : z / w * w = z := by
  have hd : w.re * w.re + w.im * w.im ≠ 0 := fun h ↦ hw (eq_zero_of_sq_add_sq (by rw [← h]; ring))
  apply ext
  · calc (z / w * w).re = z.re * (w.re * w.re + w.im * w.im) / (w.re * w.re + w.im * w.im) := by
          show (z.re * w.re + z.im * w.im) / (w.re * w.re + w.im * w.im) * w.re -
            (z.im * w.re - z.re * w.im) / (w.re * w.re + w.im * w.im) * w.im = _
          ring
      _ = z.re := mul_div_cancel_right₀ _ hd
  · calc (z / w * w).im = z.im * (w.re * w.re + w.im * w.im) / (w.re * w.re + w.im * w.im) := by
          show (z.re * w.re + z.im * w.im) / (w.re * w.re + w.im * w.im) * w.im +
            (z.im * w.re - z.re * w.im) / (w.re * w.re + w.im * w.im) * w.re = _
          ring
      _ = z.im := mul_div_cancel_right₀ _ hd

theorem div_eq_zero_iff (hw : w ≠ 0) : z / w = 0 ↔ z = 0 := by
  refine ⟨fun h ↦ ?_, fun h ↦ by rw [h, zero_div]⟩
  rw [← div_mul_cancel z hw, h, zero_mul]

end Division

end Complex

end ZPlane
