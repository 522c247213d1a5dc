import Mathlib
import ZPlane.Complex.Elementary
import ZPlane.Proofs.Number.Zeros

/-!
# Complex numbers up to the signs of zeros

Complex numbers are alike if their parts are.  The arithmetic keeps what is alike, and so do the
exponential and the powers of one base.  A real and an imaginary number with finite parts are put
together as on paper, up to the signs of the zeros that come out of it.
-/

namespace ZPlane

open Binary64 (isNaN_of_isFinite)

namespace Complex

/-- Both parts are alike. -/
structure Alike (z w : Complex Binary64) : Prop where
  re : z.re.Alike w.re
  im : z.im.Alike w.im

namespace Alike

variable {z z' w w' : Complex Binary64}

theorem refl (z : Complex Binary64) : z.Alike z := ⟨.refl _, .refl _⟩

theorem symm (h : z.Alike w) : w.Alike z := ⟨h.re.symm, h.im.symm⟩

theorem trans {v : Complex Binary64} (h : z.Alike w) (h' : w.Alike v) : z.Alike v :=
  ⟨h.re.trans h'.re, h.im.trans h'.im⟩

theorem neg (h : z.Alike w) : (-z).Alike (-w) := ⟨h.re.neg, h.im.neg⟩

theorem add (hz : z.Alike z') (hw : w.Alike w') : (z + w).Alike (z' + w') :=
  ⟨hz.re.add hw.re, hz.im.add hw.im⟩

theorem sub (hz : z.Alike z') (hw : w.Alike w') : (z - w).Alike (z' - w') :=
  ⟨hz.re.sub hw.re, hz.im.sub hw.im⟩

theorem mul (hz : z.Alike z') (hw : w.Alike w') : (z * w).Alike (z' * w') :=
  ⟨(hz.re.mul hw.re).sub (hz.im.mul hw.im), (hz.re.mul hw.im).add (hz.im.mul hw.re)⟩

theorem exp (h : z.Alike w) : z.exp.Alike w.exp :=
  ⟨(h.re.liftOne _).mul (h.im.liftOne _), (h.re.liftOne _).mul (h.im.liftZero _)⟩

/-- The exponent is only multiplied, and compared with zero. -/
theorem pow (z : Complex Binary64) (h : w.Alike w') : (z.pow w).Alike (z.pow w') := by
  have hpositive : 0 < w.re ↔ 0 < w'.re := by
    show (_ ∧ _ ∧ _) ↔ (_ ∧ _ ∧ _)
    rw [h.re.isNaN_eq, h.re.position_eq]
  rw [Complex.pow, Complex.pow]
  by_cases hzero : z.isOrigin = true ∧ 0 < w.re
  · rw [if_pos hzero, if_pos (hzero.imp_right hpositive.mp)]
    exact refl 0
  · rw [if_neg hzero, if_neg fun h ↦ hzero (h.imp_right hpositive.mpr)]
    have hl := refl z.log
    apply exp
    constructor
    · exact (hl.re.mul h.re).sub (hl.im.mul h.im)
    · exact (hl.re.mul h.im).add (hl.im.mul h.re)

end Alike

/-! ### Real and imaginary parts -/

variable {x y : Binary64}

/-- A finite number times the imaginary unit. -/
theorem ofReal_mul_i (hx : x.isFinite = true) : (ofReal x * i).Alike ⟨0, x⟩ := by
  have hnumber := isNaN_of_isFinite hx
  have hzero : (0 : Binary64).isFinite = true := rfl
  constructor
  · have hre : (x * 0 - 0 * 1).Alike (0 - 0) :=
      (Binary64.mul_zero_alike hx).sub (.inl (Binary64.mul_one rfl))
    exact hre.trans (.inl (Binary64.sub_zero rfl))
  · have him : (x * 1 + 0 * 0).Alike (x + 0) :=
      Binary64.Alike.add (.inl (Binary64.mul_one hnumber)) (Binary64.mul_zero_alike hzero)
    exact him.trans (Binary64.add_zero_alike hnumber)

/-- The negative of a real number is that of a complex one, zeros apart. -/
theorem neg_ofReal (x : Binary64) : (-ofReal x).Alike (ofReal (-x)) :=
  ⟨.refl _, Binary64.neg_zero_alike⟩

/-- The negative of an imaginary number is imaginary, zeros apart. -/
theorem neg_imaginary (x : Binary64) : (-⟨0, x⟩ : Complex Binary64).Alike ⟨0, -x⟩ :=
  ⟨Binary64.neg_zero_alike, .refl _⟩

/-- The sum of its parts is the number, zeros apart. -/
theorem ofReal_add_imaginary (hx : x.isNaN = false) (hy : y.isNaN = false) :
    (ofReal x + ⟨0, y⟩).Alike ⟨x, y⟩ :=
  ⟨Binary64.add_zero_alike hx, Binary64.zero_add_alike hy⟩

/-- The difference of its parts is the conjugate, zeros apart. -/
theorem ofReal_sub_imaginary (hx : x.isNaN = false) (hy : y.isNaN = false) :
    (ofReal x - ⟨0, y⟩).Alike ⟨x, -y⟩ :=
  ⟨.inl (Binary64.sub_zero hx), Binary64.zero_sub_alike hy⟩

end Complex

end ZPlane
