import Mathlib
import ZPlane.Complex.Basic

/-!
# Exact scalars with an undefined value

Real numbers with one more value for what has no result.  Every operation on it gives it back, so
does a division by zero, and it is less than nothing and nothing is less than it.  Over these scalars
an iteration can leave the numbers, as it does in the machine's arithmetic, but nothing is rounded.
-/

namespace ZPlane

/-- A real number, or the outcome of an operation that has none. -/
inductive Exact where
  | number (x : ℝ)
  | undefined

namespace Exact

/-- Extends a function of two numbers. -/
def lift₂ (f : ℝ → ℝ → Exact) : Exact → Exact → Exact
  | number x, number y => f x y
  | _, _ => undefined

noncomputable instance : Zero Exact := ⟨number 0⟩
noncomputable instance : One Exact := ⟨number 1⟩
noncomputable instance : NatCast Exact := ⟨fun n ↦ number n⟩

noncomputable instance : Add Exact := ⟨lift₂ fun x y ↦ number (x + y)⟩
noncomputable instance : Sub Exact := ⟨lift₂ fun x y ↦ number (x - y)⟩
noncomputable instance : Mul Exact := ⟨lift₂ fun x y ↦ number (x * y)⟩
noncomputable instance : Div Exact :=
  ⟨lift₂ fun x y ↦ if y = 0 then undefined else number (x / y)⟩

/-- Numbers have their order. -/
instance : LT Exact := ⟨fun a b ↦ ∃ x y, a = number x ∧ b = number y ∧ x < y⟩

noncomputable instance : DecidableLT Exact := fun _ _ ↦ Classical.propDecidable _

noncomputable instance : Scalar Exact where
  abs
    | number x => number |x|
    | undefined => undefined
  hypot := lift₂ fun x y ↦ number √(x ^ 2 + y ^ 2)
  power := lift₂ fun x y ↦ number (x ^ y)
  isFinite
    | number _ => true
    | undefined => false
  tolerance := number 1e-9

variable {a b c : Exact} {x y : ℝ}

theorem number_lt_number : number x < number y ↔ x < y := by
  constructor
  · rintro ⟨x', y', hx, hy, hlt⟩
    cases hx
    cases hy
    exact hlt
  · exact fun hlt ↦ ⟨x, y, rfl, rfl, hlt⟩

theorem exists_of_zero_lt (h : 0 < a) : ∃ x, a = number x ∧ 0 < x := by
  obtain ⟨z, x, hz, rfl, hlt⟩ := h
  cases hz
  exact ⟨x, rfl, hlt⟩

theorem exists_of_lt_one (h : a < 1) : ∃ x, a = number x ∧ x < 1 := by
  obtain ⟨x, z, rfl, hz, hlt⟩ := h
  cases hz
  exact ⟨x, rfl, hlt⟩

/-- A quotient is less than a number only if it is one of numbers. -/
theorem exists_of_div_lt (h : a / b < c) :
    ∃ x y z, a = number x ∧ b = number y ∧ c = number z ∧ y ≠ 0 ∧ x / y < z := by
  obtain ⟨q, z, hq, rfl, hlt⟩ := h
  cases a with
  | undefined => cases hq
  | number x =>
      cases b with
      | undefined => cases hq
      | number y =>
          have hq : (if y = 0 then undefined else number (x / y)) = number q := hq
          split at hq
          · cases hq
          · rename_i hy
            cases hq
            exact ⟨x, y, z, rfl, rfl, rfl, hy, hlt⟩

end Exact

end ZPlane
