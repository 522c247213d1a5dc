import Mathlib
import ZPlane.Proofs.Design.Refusal
import ZPlane.Proofs.Design.Response
import ZPlane.Proofs.Polynomial.Factors

/-!
# Real filters

A root that is not real stands for its conjugate too, so conjugation permutes the roots that factors
are made of, and those that vanish vanish together.  Conjugate roots make conjugate coefficients,
whatever their order, so the coefficients of the product are their own conjugates (`real_filter`).
Those of a part of it, between a root and its conjugate, are not.
-/

open Polynomial
open scoped List

namespace ZPlane

namespace Complex

/-! ### Conjugation -/

section Conjugation

variable {α : Type} [CommRing α]

/-- Conjugation keeps sums and products. -/
def conjHom : Complex α →+* Complex α where
  toFun := conj
  map_zero' := by ext <;> simp [conj]
  map_one' := by ext <;> simp [conj]
  map_add' z w := by
    ext
    · rfl
    · exact neg_add z.im w.im
  map_mul' z w := by
    ext
    · simp [conj]
    · simp only [conj, mul_im]
      ring

@[simp] theorem conjHom_apply (z : Complex α) : conjHom z = z.conj := rfl

theorem conj_conj (z : Complex α) : z.conj.conj = z := by ext <;> simp [conj]

theorem map_ofReal_re {zs : List (Complex α)} (h : ∀ z ∈ zs, z.im = 0) :
    (zs.map re).map ofReal = zs := by
  have hsame : ∀ z ∈ zs, (ofReal ∘ re) z = id z := fun z hz ↦ ext rfl (h z hz).symm
  rw [List.map_map, List.map_congr_left hsame, List.map_id]

end Conjugation

variable {z : Complex ℝ}

theorem conj_eq_self_iff : z.conj = z ↔ z.im = 0 := by
  rw [Complex.ext_iff]
  simp [conj, neg_eq_self]

/-- The root is real, or far enough from the real axis not to be taken for real. -/
def IsSettled (z : Complex ℝ) : Prop := z.im = 0 ∨ Scalar.tolerance ≤ |z.im|

theorem tolerance_pos : 0 < (Scalar.tolerance : ℝ) := by norm_num [Scalar.tolerance]

/-- A real root adds one factor. -/
theorem conjugates_of_real (h : z.im = 0) : z.conjugates = [z] := by
  refine if_pos (closeTo_zero_iff.mpr ?_)
  rw [h, abs_zero]
  exact tolerance_pos

/-- A root that is far enough from the real axis adds itself and its conjugate. -/
theorem conjugates_of_le (h : Scalar.tolerance ≤ |z.im|) : z.conjugates = [z, z.conj] :=
  if_neg fun hclose ↦ h.not_gt (closeTo_zero_iff.mp hclose)

namespace IsSettled

/-- Conjugation permutes what a root stands for. -/
theorem map_conj_conjugates (h : z.IsSettled) : z.conjugates.map conj ~ z.conjugates := by
  rcases h with h | h
  · rw [conjugates_of_real h, List.map_singleton, conj_eq_self_iff.mpr h]
  · rw [conjugates_of_le h, List.map_cons, List.map_singleton, conj_conj]
    exact .swap _ _ _

/-- A settled root adds a factor if it is real and does not vanish, and two if it is not real. -/
theorem length_conjugates (h : z.IsSettled) :
    (z.conjugates.filter fun r ↦ !r.isZero).length =
      (if z.im = 0 ∧ Scalar.tolerance ≤ |z.re| then 1 else 0) + 2 * if z.im ≠ 0 then 1 else 0 := by
  rcases h with h | h
  · have hkept : z.isZero = false ↔ Scalar.tolerance ≤ |z.re| := by
      rw [← Bool.not_eq_true, isZero_iff, h, abs_zero, ← not_lt]
      simp [tolerance_pos]
    rw [conjugates_of_real h]
    by_cases hre : Scalar.tolerance ≤ |z.re|
    · simp [h, hre, hkept.mpr hre]
    · have hzero : z.isZero = true := by
        rw [← Bool.not_eq_false, hkept]
        exact hre
      simp [h, hre, hzero]
  · have him : z.im ≠ 0 := abs_pos.mp (tolerance_pos.trans_le h)
    have hkept : z.isZero = false := by
      rw [← Bool.not_eq_true, isZero_iff]
      exact fun hzero ↦ h.not_gt hzero.2
    rw [conjugates_of_le h]
    simp [him, hkept, isZero_conj]

end IsSettled

end Complex

namespace Polynomial

/-! ### Real coefficients -/

/-- Conjugate roots make conjugate coefficients. -/
theorem map_conj_formal_ofRoots (rs : List (Complex ℝ)) :
    (ofRoots Complex.isZero rs).formal.map Complex.conjHom =
      (ofRoots Complex.isZero (rs.map Complex.conj)).formal := by
  have hkept : ((rs.map Complex.conj).filter fun r ↦ !r.isZero) =
      (rs.filter fun r ↦ !r.isZero).map Complex.conj := by
    rw [List.filter_map]
    simp [Function.comp_def, Complex.isZero_conj]
  rw [formal_ofRoots, formal_ofRoots, hkept, Polynomial.map_list_prod, List.map_map, List.map_map]
  simp [Function.comp_def]

/-- A polynomial that is its own conjugate has real coefficients. -/
theorem im_eq_zero_of_map_conj {p : Polynomial (Complex ℝ)}
    (h : p.formal.map Complex.conjHom = p.formal) : ∀ c ∈ p.coeffs, c.im = 0 := by
  rw [p.coeffs_eq_map]
  simp only [List.forall_mem_map]
  intro k _
  have hcoeff := congrArg (fun f ↦ f.coeff k) h
  simp only [coeff_map, Complex.conjHom_apply] at hcoeff
  exact Complex.conj_eq_self_iff.mp hcoeff

/-- What is transformed to evaluate the polynomial: its coefficients, with zeros up to the size. -/
def padded (p : Polynomial (Complex ℝ)) (size : ℕ) : List (Complex ℝ) :=
  p.coeffs ++ List.replicate (size - p.coeffs.length) 0

end Polynomial

namespace Response

variable {roots : List (Complex ℝ)}

/-- The coefficients for settled roots are real. -/
theorem im_coeffs_characteristic (h : ∀ z ∈ roots, z.IsSettled) :
    ∀ c ∈ (characteristic roots).coeffs, c.im = 0 := by
  apply Polynomial.im_eq_zero_of_map_conj
  have hperm : (roots.flatMap Complex.conjugates).map Complex.conj ~
      roots.flatMap Complex.conjugates := by
    rw [List.map_flatMap]
    exact List.Perm.flatMap_left roots fun z hz ↦ (h z hz).map_conj_conjugates
  rw [characteristic, Polynomial.map_conj_formal_ofRoots, Polynomial.ofRoots_of_perm hperm]

/-- The degree counts the real roots that do not vanish once and the others twice. -/
theorem degree_characteristic (h : ∀ z ∈ roots, z.IsSettled) :
    (characteristic roots).degree =
      (roots.countP fun z ↦ z.im = 0 ∧ Scalar.tolerance ≤ |z.re|) +
        2 * roots.countP fun z ↦ z.im ≠ 0 := by
  rw [Polynomial.degree, length_coeffs_characteristic, Nat.add_sub_cancel]
  induction roots with
  | nil => rfl
  | cons z roots ih =>
      obtain ⟨hz, hroots⟩ := List.forall_mem_cons.mp h
      rw [List.map_cons, List.sum_cons, ih hroots, hz.length_conjugates, List.countP_cons,
        List.countP_cons]
      simp only [decide_eq_true_eq]
      ring

/-- The input of the transform is a list of real numbers. -/
theorem exists_padded_eq (h : ∀ z ∈ roots, z.IsSettled) (size : ℕ) :
    ∃ xs : List ℝ, (characteristic roots).padded size = xs.map Complex.ofReal := by
  refine ⟨_, (Complex.map_ofReal_re fun z hz ↦ ?_).symm⟩
  rcases List.mem_append.mp hz with hz | hz
  · exact im_coeffs_characteristic h z hz
  · rw [List.eq_of_mem_replicate hz, Complex.zero_im]

/-- A response is made of two transforms. -/
theorem magnitudes_of_ofRoots {table : Array ℝ} {zeros poles : List (Complex ℝ)}
    {gain : Complex ℝ} {size : ℕ} {nyquist : ℝ} {r : Response ℝ}
    (h : ofRoots table zeros poles gain size nyquist = .ok r) :
    r.magnitudes = List.zipWith (fun a b ↦ gain.norm * a.norm / b.norm)
      (((Fourier.transform? table ((characteristic zeros).padded size)).getD []).take
        (size / 2 + 1))
      ((Fourier.transform? table ((characteristic poles).padded size)).getD []) := by
  obtain ⟨hzeros, hpoles⟩ := served_of_ofRoots h
  rw [ofRoots, Fourier.onCircle_of_served hzeros, Fourier.onCircle_of_served hpoles] at h
  rw [← Except.ok.inj h]
  rfl

end Response

namespace Design

variable {d : Design ℝ}

/-- The polynomial of the roots of one kind. -/
noncomputable def polynomial (d : Design ℝ) : RootKind → Polynomial (Complex ℝ)
  | .zero => d.numerator
  | .pole => d.denominator

/-- The polynomial of a design is the one its response is made of. -/
theorem polynomial_eq (d : Design ℝ) (kind : RootKind) :
    d.polynomial kind = Response.characteristic (d.values kind) := by
  cases kind with
  | zero | pole => rfl

/-- If every zero and pole is real or at least the tolerance away from the real axis, both
polynomials have real coefficients, and so real points are transformed for the response.  The degree
is the number of real roots that are not zero within the tolerance, and twice that of the others. -/
theorem real_filter
    (h : ∀ kind, ∀ r ∈ d.roots kind, r.value.im = 0 ∨ Scalar.tolerance ≤ |r.value.im|) :
    (∀ kind, (∀ c ∈ (d.polynomial kind).coeffs, c.im = 0) ∧
      (d.polynomial kind).degree =
        ((d.roots kind).countP fun r ↦ r.value.im = 0 ∧ Scalar.tolerance ≤ |r.value.re|) +
          2 * (d.roots kind).countP fun r ↦ r.value.im ≠ 0) ∧
    ∀ table r, d.response table = .ok r → ∃ above below : List ℝ,
      d.numerator.padded d.options.resolution = above.map .ofReal ∧
      d.denominator.padded d.options.resolution = below.map .ofReal ∧
      r.magnitudes = List.zipWith (fun a b ↦ d.options.gain.value.norm * a.norm / b.norm)
        (((Fourier.transform? table (above.map .ofReal)).getD []).take
          (d.options.resolution / 2 + 1))
        ((Fourier.transform? table (below.map .ofReal)).getD []) := by
  have hsettled (kind : RootKind) : ∀ z ∈ d.values kind, z.IsSettled :=
    List.forall_mem_map.mpr (h kind)
  refine ⟨fun kind ↦ ⟨?_, ?_⟩, fun table r hr ↦ ?_⟩
  · rw [polynomial_eq]
    exact Response.im_coeffs_characteristic (hsettled kind)
  · rw [polynomial_eq, Response.degree_characteristic (hsettled kind), values, List.countP_map,
      List.countP_map]
    rfl
  · obtain ⟨above, habove⟩ := Response.exists_padded_eq (hsettled .zero) d.options.resolution
    obtain ⟨below, hbelow⟩ := Response.exists_padded_eq (hsettled .pole) d.options.resolution
    refine ⟨above, below, habove, hbelow, ?_⟩
    rw [Response.magnitudes_of_ofRoots (ofRoots_of_response hr), habove, hbelow]

/-- A zero that is not real and one that is, with a pole at the origin and one that is not real. -/
theorem real_filter_eight :
    let d : Design ℝ := ⟨[⟨"(1 + i)/2", ⟨1 / 2, 1 / 2⟩, none⟩, ⟨"1", ⟨1, 0⟩, none⟩],
      [⟨"0", ⟨0, 0⟩, none⟩, ⟨"-2i", ⟨0, -2⟩, none⟩],
      ⟨8, ⟨"1", ⟨1, 0⟩, none⟩, ⟨"1", ⟨1, 0⟩, none⟩⟩⟩
    (∀ kind, ∀ r ∈ d.roots kind, r.value.im = 0 ∨ Scalar.tolerance ≤ |r.value.im|) ∧
      (∀ c ∈ d.numerator.coeffs, c.im = 0) ∧ d.numerator.degree = 3 ∧
      (∀ c ∈ d.denominator.coeffs, c.im = 0) ∧ d.denominator.degree = 2 ∧
      ∃ r, d.response Fourier.realSines = .ok r ∧ ∃ above below : List ℝ,
        d.numerator.padded 8 = above.map .ofReal ∧ d.denominator.padded 8 = below.map .ofReal ∧
        r.magnitudes = List.zipWith (fun a b ↦ (⟨1, 0⟩ : Complex ℝ).norm * a.norm / b.norm)
          (((Fourier.transform? Fourier.realSines (above.map .ofReal)).getD []).take 5)
          ((Fourier.transform? Fourier.realSines (below.map .ofReal)).getD []) := by
  intro d
  have hroots : ∀ kind, ∀ r ∈ d.roots kind,
      r.value.im = 0 ∨ Scalar.tolerance ≤ |r.value.im| := by
    intro kind
    cases kind with
    | pole | zero => norm_num [d, roots, Scalar.tolerance]
  have hsize : Fourier.checkSize 8 = .ok () := Fourier.checkSize_two_pow (k := 3) (by decide)
  have hvalid : d.options.validate = .ok () := by rw [Options.validate, hsize]
  have hfew (kind : RootKind) : 2 * (d.roots kind).length < d.options.resolution := by
    cases kind with
    | pole | zero => decide
  obtain ⟨r, hr⟩ := exists_response Fourier.isExact_realSines hvalid hfew
  obtain ⟨hpolynomials, htransforms⟩ := real_filter hroots
  obtain ⟨hnumerator, hzeros⟩ := hpolynomials .zero
  obtain ⟨hdenominator, hpoles⟩ := hpolynomials .pole
  obtain ⟨above, below, habove, hbelow, hmagnitudes⟩ := htransforms _ r hr
  have hhalf : d.options.resolution / 2 + 1 = 5 := by decide
  rw [hhalf] at hmagnitudes
  refine ⟨hroots, hnumerator, ?_, hdenominator, ?_, r, hr, above, below, habove, hbelow,
    hmagnitudes⟩
  · rw [← polynomial.eq_1, hzeros]
    norm_num [d, roots, Scalar.tolerance]
  · rw [← polynomial.eq_2, hpoles]
    norm_num [d, roots, Scalar.tolerance]

/-- A real root that is closer to the origin than the tolerance adds nothing to the degree, though
it is not zero. -/
theorem degree_of_small_root :
    let d : Design ℝ := ⟨[⟨"1e-12", ⟨1e-12, 0⟩, none⟩], [],
      ⟨8, ⟨"1", ⟨1, 0⟩, none⟩, ⟨"1", ⟨1, 0⟩, none⟩⟩⟩
    (∀ kind, ∀ r ∈ d.roots kind, r.value.im = 0 ∨ Scalar.tolerance ≤ |r.value.im|) ∧
      d.numerator.degree = 0 ∧
      (d.zeros.countP fun r ↦ r.value.im = 0 ∧ r.value.re ≠ 0) +
        2 * (d.zeros.countP fun r ↦ r.value.im ≠ 0) = 1 := by
  intro d
  have hroots : ∀ kind, ∀ r ∈ d.roots kind,
      r.value.im = 0 ∨ Scalar.tolerance ≤ |r.value.im| := by
    intro kind
    cases kind with
    | pole | zero => norm_num [d, roots]
  refine ⟨hroots, ?_, by norm_num [d]⟩
  have hsettled : ∀ z ∈ d.values .zero, z.IsSettled := List.forall_mem_map.mpr (hroots .zero)
  rw [numerator, Response.degree_characteristic hsettled]
  norm_num [d, values, roots, Scalar.tolerance]

end Design

end ZPlane
