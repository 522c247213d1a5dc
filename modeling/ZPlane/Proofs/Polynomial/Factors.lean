import Mathlib
import ZPlane.Proofs.Complex.Ring
import ZPlane.Proofs.Number.Real
import ZPlane.Proofs.Polynomial.Eval

/-!
# Linear factors

A polynomial that is built from roots is monic, and the order of its roots does not matter.
Dividing by `x - r` carries the value at `r` of what is above each coefficient down to the next one,
so the remainder is the value of the whole, and dividing by one of the roots takes its factor away.
-/

open Polynomial
open scoped List

namespace ZPlane

namespace Polynomial

/-- A root that does not vanish is kept, wherever it stands. -/
theorem filter_append_cons_perm {κ : Type} {vanishes : κ → Bool} {r : κ} (hr : vanishes r = false)
    (as bs : List κ) : (as ++ r :: bs).filter (fun r ↦ !vanishes r) ~
      r :: (as ++ bs).filter (fun r ↦ !vanishes r) := by
  refine (List.perm_middle.filter _).trans ?_
  rw [List.filter_cons_of_pos (by rw [hr, Bool.not_false])]

/-- Dividing takes one coefficient away. -/
theorem length_deflate {κ : Type} [Zero κ] [Add κ] [Mul κ] (p : Polynomial κ) (r : κ) :
    (p.deflate r).coeffs.length = p.coeffs.length - 1 := by
  have hcarries (cs : List κ) :
      (cs.foldr (fun c q ↦ (c + q.headD 0 * r) :: q) []).length = cs.length := by
    induction cs with
    | nil => rfl
    | cons c cs ih => rw [List.foldr_cons, List.length_cons, ih, List.length_cons]
  rw [deflate, hcarries, List.length_tail]

section Exact

variable {κ : Type} [CommRing κ] {vanishes : κ → Bool} {r : κ}

/-! ### Products -/

/-- A monic factor keeps the leading coefficient. -/
theorem getLast?_timesLinear (r below : κ) {as : List κ} (h : as ≠ []) :
    (timesLinear r below as).getLast? = as.getLast? := by
  induction as generalizing below with
  | nil => exact absurd rfl h
  | cons a as ih =>
      cases as with
      | nil => rfl
      | cons b bs =>
          rw [timesLinear, List.getLast?_cons_cons, ← ih a (List.cons_ne_nil b bs)]
          rfl

theorem getLast?_foldl_timesLinear (rs : List κ) {as : List κ} (h : as ≠ []) :
    (rs.foldl (fun as r ↦ timesLinear r 0 as) as).getLast? = as.getLast? := by
  induction rs generalizing as with
  | nil => rfl
  | cons r rs ih =>
      have hlonger : timesLinear r 0 as ≠ [] := List.ne_nil_of_length_eq_add_one
        (length_timesLinear r 0 as)
      rw [List.foldl_cons, ih hlonger, getLast?_timesLinear r 0 h]

theorem getLast?_ofRoots (vanishes : κ → Bool) (rs : List κ) :
    (ofRoots vanishes rs).coeffs.getLast? = some 1 :=
  getLast?_foldl_timesLinear _ (List.cons_ne_nil 1 [])

/-- The order of the roots does not matter. -/
theorem ofRoots_of_perm {rs ss : List κ} (h : rs ~ ss) :
    ofRoots vanishes rs = ofRoots vanishes ss := by
  have hfactors := h.filter fun r ↦ !vanishes r
  apply eq_of_formal
  · rw [length_coeffs_ofRoots, length_coeffs_ofRoots, hfactors.length_eq]
  · rw [formal_ofRoots, formal_ofRoots, (hfactors.map _).prod_eq]

/-- The factor of one root among others can be taken out. -/
theorem formal_ofRoots_append_cons (hr : vanishes r = false) (as bs : List κ) :
    (ofRoots vanishes (as ++ r :: bs)).formal =
      (X - C r) * (ofRoots vanishes (as ++ bs)).formal := by
  rw [formal_ofRoots, formal_ofRoots, ((filter_append_cons_perm hr as bs).map _).prod_eq,
    List.map_cons, List.prod_cons]

theorem length_ofRoots_append_cons (hr : vanishes r = false) (as bs : List κ) :
    (ofRoots vanishes (as ++ r :: bs)).coeffs.length =
      (ofRoots vanishes (as ++ bs)).coeffs.length + 1 := by
  rw [length_coeffs_ofRoots, length_coeffs_ofRoots, (filter_append_cons_perm hr as bs).length_eq,
    List.length_cons]

/-- The roots of a product of linear factors are determined up to their order. -/
theorem perm_of_prod_eq [IsDomain κ] {rs ss : List κ}
    (h : (rs.map fun r ↦ X - C r).prod = (ss.map fun r ↦ X - C r).prod) : rs ~ ss := by
  have hroots (ts : List κ) : (ts.map fun r ↦ X - C r).prod.roots = (ts : Multiset κ) := by
    rw [← Multiset.prod_coe, ← Multiset.map_coe, roots_multiset_prod_X_sub_C]
  rw [← Multiset.coe_eq_coe, ← hroots rs, h, hroots]

/-! ### Division -/

/-- The carry out of the coefficients `cs` is their value at `r`. -/
theorem headD_carries (r : κ) (cs : List κ) :
    (cs.foldr (fun c q ↦ (c + q.headD 0 * r) :: q) []).headD 0 =
      (⟨cs⟩ : Polynomial κ).eval r := by
  induction cs with
  | nil => rfl
  | cons c cs ih => rw [List.foldr_cons, List.headD_cons, ih, eval_cons, add_comm]

/-- The quotient begins with a value of the other coefficients. -/
theorem deflate_cons_cons (r c d : κ) (ds : List κ) :
    (⟨c :: d :: ds⟩ : Polynomial κ).deflate r =
      ⟨(⟨d :: ds⟩ : Polynomial κ).eval r :: ((⟨d :: ds⟩ : Polynomial κ).deflate r).coeffs⟩ := by
  rw [deflate, List.tail_cons, List.foldr_cons, headD_carries, eval_cons, add_comm]
  rfl

/-- The remainder of the division by `x - r` is the value at `r`. -/
theorem formal_eq_deflate (p : Polynomial κ) (r : κ) :
    p.formal = (X - C r) * (p.deflate r).formal + C (p.eval r) := by
  obtain ⟨cs⟩ := p
  induction cs with
  | nil => simp [deflate]
  | cons c cs ih =>
      cases cs with
      | nil => simp [deflate]
      | cons d ds =>
          rw [formal_cons, ih, deflate_cons_cons, formal_cons, eval_cons c, C_add, C_mul]
          ring

/-- Division with remainder, in values: the remainder is the value at the root. -/
theorem eval_eq_deflate (p : Polynomial κ) (r x : κ) :
    p.eval x = (x - r) * (p.deflate r).eval x + p.eval r := by
  calc p.eval x = ((X - C r) * (p.deflate r).formal + C (p.eval r)).eval x := by
        rw [← formal_eq_deflate, eval_formal]
    _ = (x - r) * (p.deflate r).eval x + p.eval r := by
        rw [eval_add, eval_mul, eval_sub, eval_X, eval_C, eval_C, eval_formal]

/-- The quotient has the leading coefficient of the polynomial. -/
theorem getLast?_deflate {p : Polynomial κ} (h : 1 ≤ p.degree) (r : κ) :
    (p.deflate r).coeffs.getLast? = p.coeffs.getLast? := by
  obtain ⟨cs⟩ := p
  induction cs with
  | nil => exact absurd h (Nat.not_succ_le_zero 0)
  | cons c cs ih =>
      cases cs with
      | nil => exact absurd h (Nat.not_succ_le_zero 0)
      | cons d ds =>
          rw [deflate_cons_cons, List.getLast?_cons_cons]
          cases ds with
          | nil => simp [deflate]
          | cons e es =>
              rw [← ih (Nat.le_add_left 1 es.length), deflate_cons_cons, List.getLast?_cons_cons]

/-- Dividing by a root takes its factor away.  The factor is monic, so it can be cancelled. -/
theorem deflate_ofRoots (hr : vanishes r = false) (as bs : List κ) :
    (ofRoots vanishes (as ++ r :: bs)).deflate r = ofRoots vanishes (as ++ bs) := by
  have hfactor := formal_ofRoots_append_cons hr as bs
  have hroot : (ofRoots vanishes (as ++ r :: bs)).eval r = 0 := by
    rw [← eval_formal, hfactor, eval_mul, eval_sub, eval_X, eval_C, sub_self, zero_mul]
  have hdivided := formal_eq_deflate (ofRoots vanishes (as ++ r :: bs)) r
  rw [hroot, C_0, add_zero, hfactor] at hdivided
  apply eq_of_formal
  · rw [length_deflate, length_ofRoots_append_cons hr, Nat.add_sub_cancel]
  · exact ((monic_X_sub_C r).isRegular.left hdivided).symm

end Exact

/-! ### Roots of the plane -/

/-- The roots that are not zero within the tolerance, and are made factors. -/
noncomputable def nonzero (rs : List (Complex ℝ)) : List (Complex ℝ) :=
  rs.filter fun r ↦ ¬ (|r.re| < 1e-9 ∧ |r.im| < 1e-9)

/-- A root does not vanish exactly if one of its parts is out of the tolerance. -/
theorem isZero_eq_false_iff {r : Complex ℝ} :
    r.isZero = false ↔ ¬ (|r.re| < 1e-9 ∧ |r.im| < 1e-9) := by
  rw [← Bool.not_eq_true, Complex.isZero_iff]
  rfl

theorem filter_isZero (rs : List (Complex ℝ)) :
    (rs.filter fun r ↦ !r.isZero) = nonzero rs := by
  refine List.filter_congr fun r _ ↦ ?_
  rw [Bool.eq_iff_iff, Bool.not_eq_true', isZero_eq_false_iff, decide_eq_true_iff]

/-- A polynomial that is built from roots is the product of the factors `x - r` of those that are
not zero within the tolerance: as a formal polynomial, in the number of its coefficients, of which
the last is one, and in each of its values.  The order of the roots does not matter. -/
theorem ofRoots_monic_product (rs : List (Complex ℝ)) :
    let p := ofRoots Complex.isZero rs
    p.formal = ((nonzero rs).map fun r ↦ X - C r).prod ∧
      p.coeffs.length = (nonzero rs).length + 1 ∧ p.coeffs.getLast? = some 1 ∧
      (∀ x, p.eval x = ((nonzero rs).map fun r ↦ x - r).prod) ∧
      ∀ ss, rs ~ ss → ofRoots Complex.isZero ss = p := by
  intro p
  refine ⟨?_, ?_, getLast?_ofRoots _ rs, fun x ↦ ?_, fun ss h ↦ ofRoots_of_perm h.symm⟩
  · rw [formal_ofRoots, filter_isZero]
  · rw [length_coeffs_ofRoots, filter_isZero]
  · rw [eval_ofRoots, filter_isZero]

/-- Three roots, of which one is too small for a factor. -/
theorem ofRoots_monic_product_three :
    let a : Complex ℝ := ⟨1, 0⟩
    let b : Complex ℝ := ⟨0, 1e-10⟩
    let c : Complex ℝ := ⟨-1, 2⟩
    nonzero [a, b, c] = [a, c] ∧ [a, b, c] ~ [c, a, b] ∧
      ofRoots Complex.isZero [c, a, b] = ofRoots Complex.isZero [a, b, c] ∧
      (ofRoots Complex.isZero [a, b, c]).coeffs.length = 3 ∧
      ∀ x, (ofRoots Complex.isZero [a, b, c]).eval x = (x - a) * (x - c) := by
  intro a b c
  have hkept : nonzero [a, b, c] = [a, c] := by
    norm_num [nonzero, a, b, c]
  have hperm : [a, b, c] ~ [c, a, b] := List.perm_append_singleton c [a, b]
  obtain ⟨-, hlength, -, heval, hsame⟩ := ofRoots_monic_product [a, b, c]
  refine ⟨hkept, hperm, hsame _ hperm, ?_, fun x ↦ ?_⟩
  · rw [hlength, hkept]
    rfl
  · rw [heval, hkept]
    simp

/-- Dividing by `x - r` is synthetic division: it leaves the value at `r`, takes one coefficient and
keeps the leading one.  Dividing a polynomial that is built from roots by one of them, wherever it
stands, gives the polynomial of the others. -/
theorem deflate_divides (p : Polynomial (Complex ℝ)) (r : Complex ℝ) :
    (∀ x, p.eval x = (x - r) * (p.deflate r).eval x + p.eval r) ∧
      (p.coeffs ≠ [] → (p.deflate r).coeffs.length + 1 = p.coeffs.length) ∧
      (1 ≤ p.degree → (p.deflate r).coeffs.getLast? = p.coeffs.getLast?) ∧
      (¬ (|r.re| < 1e-9 ∧ |r.im| < 1e-9) → ∀ as bs,
        (ofRoots Complex.isZero (as ++ r :: bs)).deflate r =
          ofRoots Complex.isZero (as ++ bs)) := by
  refine ⟨eval_eq_deflate p r, fun hp ↦ ?_, fun h ↦ getLast?_deflate h r,
    fun hr ↦ deflate_ofRoots (isZero_eq_false_iff.mpr hr)⟩
  rw [length_deflate, Nat.sub_add_cancel (List.length_pos_iff.mpr hp)]

/-- A quadratic polynomial that is divided at a point that is no root of it, and one that is divided
by the second of three roots. -/
theorem deflate_divides_quadratic :
    let p : Polynomial (Complex ℝ) := ⟨[⟨2, 0⟩, ⟨-3, 0⟩, ⟨1, 0⟩]⟩
    let r : Complex ℝ := ⟨0, 1⟩
    p.coeffs ≠ [] ∧ 1 ≤ p.degree ∧ ¬ (|r.re| < 1e-9 ∧ |r.im| < 1e-9) ∧ p.eval r = ⟨1, -3⟩ ∧
      (∀ x, p.eval x = (x - r) * (p.deflate r).eval x + ⟨1, -3⟩) ∧
      (p.deflate r).coeffs.length + 1 = 3 ∧ (p.deflate r).coeffs.getLast? = some ⟨1, 0⟩ ∧
      (ofRoots Complex.isZero [⟨1, 0⟩, r, r]).deflate r = ofRoots Complex.isZero [⟨1, 0⟩, r] := by
  intro p r
  have hr : ¬ (|r.re| < 1e-9 ∧ |r.im| < 1e-9) := by norm_num [r]
  have hvalue : p.eval r = ⟨1, -3⟩ := by
    ext <;> norm_num [p, r]
  obtain ⟨hdivides, hlength, hleading, hfactor⟩ := deflate_divides p r
  refine ⟨List.cons_ne_nil _ _, by decide, hr, hvalue, fun x ↦ ?_, hlength (List.cons_ne_nil _ _),
    hleading (by decide), hfactor hr [⟨1, 0⟩] [r]⟩
  rw [← hvalue, hdivides x]

end Polynomial

end ZPlane
