import Mathlib
import ZPlane.Polynomial.Basic

/-!
# Values of polynomials

Over a commutative ring a list of coefficients stands for a polynomial in an indeterminate
(`formal`), and Horner's rule gives its value, the sum of the terms.  A polynomial that is built
from roots is the product of its linear factors, those left out that vanish; on any scalars their
number is its degree.
-/

open Polynomial

namespace ZPlane

namespace Polynomial

/-! ### Degrees -/

section Degrees

variable {κ : Type} [Sub κ] [Mul κ]

@[simp] theorem length_timesLinear (r below : κ) (as : List κ) :
    (timesLinear r below as).length = as.length + 1 := by
  induction as generalizing below with
  | nil => rfl
  | cons a as ih => rw [timesLinear, List.length_cons, ih, List.length_cons]

/-- Each factor adds a coefficient. -/
theorem length_foldl_timesLinear [Zero κ] (rs as : List κ) :
    (rs.foldl (fun as r ↦ timesLinear r 0 as) as).length = as.length + rs.length := by
  induction rs generalizing as with
  | nil => rfl
  | cons r rs ih => rw [List.foldl_cons, ih, length_timesLinear, List.length_cons]; ring

/-- The degree is the number of the roots that do not vanish. -/
theorem length_coeffs_ofRoots [Zero κ] [One κ] (vanishes : κ → Bool) (rs : List κ) :
    (ofRoots vanishes rs).coeffs.length = (rs.filter fun r ↦ !vanishes r).length + 1 := by
  rw [ofRoots, length_foldl_timesLinear, List.length_singleton, Nat.add_comm]

end Degrees

variable {κ : Type} [CommRing κ] {x : κ}

/-! ### Formal polynomials -/

/-- The polynomial in an indeterminate that has these coefficients. -/
noncomputable def formal (p : Polynomial κ) : κ[X] := p.coeffs.foldr (fun c f ↦ f * X + C c) 0

@[simp] theorem formal_nil : (⟨[]⟩ : Polynomial κ).formal = 0 := rfl

@[simp] theorem formal_cons (c : κ) (cs : List κ) :
    (⟨c :: cs⟩ : Polynomial κ).formal = (⟨cs⟩ : Polynomial κ).formal * X + C c := rfl

/-- The coefficients are those of the list, and zero above it. -/
theorem coeff_formal (cs : List κ) (k : ℕ) :
    (⟨cs⟩ : Polynomial κ).formal.coeff k = cs.getD k 0 := by
  induction cs generalizing k with
  | nil => simp
  | cons c cs ih =>
      cases k with
      | zero => simp
      | succ k => simp [ih, coeff_C_succ]

/-- The list is that of the coefficients, from the constant one up. -/
theorem coeffs_eq_map (p : Polynomial κ) :
    p.coeffs = (List.range p.coeffs.length).map p.formal.coeff := by
  refine List.ext_getElem (by simp) fun k hk _ ↦ ?_
  rw [List.getElem_map, List.getElem_range, coeff_formal, List.getD_eq_getElem _ _ hk]

/-- Of two lists of coefficients of one length, only the same one stands for the same polynomial. -/
theorem eq_of_formal {p q : Polynomial κ} (hlength : p.coeffs.length = q.coeffs.length)
    (h : p.formal = q.formal) : p = q := by
  have hcoeffs : p.coeffs = q.coeffs := by rw [p.coeffs_eq_map, q.coeffs_eq_map, hlength, h]
  exact congrArg mk hcoeffs

/-- A polynomial with one coefficient is constant. -/
theorem formal_of_length_one {p : Polynomial κ} {lead : κ} (hlength : p.coeffs.length = 1)
    (hlead : p.coeffs.getLast? = some lead) : p.formal = C lead := by
  obtain ⟨cs⟩ := p
  obtain ⟨c, rfl⟩ := List.length_eq_one_iff.mp hlength
  obtain rfl : c = lead := Option.some.inj hlead
  rw [formal_cons, formal_nil, zero_mul, zero_add]

/-! ### Horner's rule -/

@[simp] theorem eval_nil : (⟨[]⟩ : Polynomial κ).eval x = 0 := rfl

@[simp] theorem eval_cons (c : κ) (cs : List κ) :
    (⟨c :: cs⟩ : Polynomial κ).eval x = (⟨cs⟩ : Polynomial κ).eval x * x + c := rfl

/-- The value is the sum of the coefficients times powers. -/
theorem eval_eq_sum (cs : List κ) :
    (⟨cs⟩ : Polynomial κ).eval x = ∑ n ∈ Finset.range cs.length, cs.getD n 0 * x ^ n := by
  induction cs with
  | nil => rfl
  | cons c cs ih =>
      rw [eval_cons, ih, List.length_cons, Finset.sum_range_succ', Finset.sum_mul]
      simp [pow_succ, mul_assoc]

/-- Zeros at the top change no value. -/
theorem eval_append_zeros (cs : List κ) (n : ℕ) :
    (⟨cs ++ List.replicate n 0⟩ : Polynomial κ).eval x = (⟨cs⟩ : Polynomial κ).eval x := by
  induction cs with
  | nil =>
      induction n with
      | zero => rfl
      | succ n ih =>
          rw [List.nil_append] at ih ⊢
          rw [List.replicate_succ, eval_cons, ih, eval_nil, zero_mul, add_zero]
  | cons c cs ih => rw [List.cons_append, eval_cons, eval_cons, ih]

/-- It is the value of the formal polynomial. -/
theorem eval_formal (p : Polynomial κ) (x : κ) : p.formal.eval x = p.eval x := by
  obtain ⟨cs⟩ := p
  induction cs with
  | nil => simp
  | cons c cs ih => simp [ih]

/-! ### Products of linear factors -/

/-- A pass of the product multiplies by a linear factor and adds what comes in below. -/
theorem formal_timesLinear (r below : κ) (as : List κ) :
    (⟨timesLinear r below as⟩ : Polynomial κ).formal =
      C below + (X - C r) * (⟨as⟩ : Polynomial κ).formal := by
  induction as generalizing below with
  | nil => simp [timesLinear]
  | cons a as ih =>
      rw [timesLinear, formal_cons, ih, formal_cons, C_sub, C_mul]
      ring

/-- One pass for each root multiplies by all their factors. -/
theorem formal_foldl_timesLinear (rs as : List κ) :
    (⟨rs.foldl (fun as r ↦ timesLinear r 0 as) as⟩ : Polynomial κ).formal =
      (rs.map fun r ↦ X - C r).prod * (⟨as⟩ : Polynomial κ).formal := by
  induction rs generalizing as with
  | nil => rw [List.foldl_nil, List.map_nil, List.prod_nil, one_mul]
  | cons r rs ih =>
      rw [List.foldl_cons, ih, formal_timesLinear, List.map_cons, List.prod_cons, C_0]
      ring

/-- The polynomial of roots is the product of the factors of those that do not vanish. -/
theorem formal_ofRoots (vanishes : κ → Bool) (rs : List κ) :
    (ofRoots vanishes rs).formal = ((rs.filter fun r ↦ !vanishes r).map fun r ↦ X - C r).prod := by
  rw [ofRoots, formal_foldl_timesLinear, formal_cons, formal_nil, zero_mul, zero_add, C_1, mul_one]

/-- The value of the polynomial of roots is the product of the values of its factors. -/
theorem eval_ofRoots (vanishes : κ → Bool) (rs : List κ) :
    (ofRoots vanishes rs).eval x = ((rs.filter fun r ↦ !vanishes r).map (x - ·)).prod := by
  rw [← eval_formal, formal_ofRoots, eval_list_prod, List.map_map]
  simp only [Function.comp_def, eval_sub, eval_X, eval_C]

end Polynomial

end ZPlane
