import Mathlib
import ZPlane.Design.Basic
import ZPlane.Proofs.Fourier.Circle
import ZPlane.Proofs.Number.Real

/-!
# Responses in exact arithmetic

The response of a design is computed from the coefficients of two polynomials by two transforms.  In
exact arithmetic this is what the roots say directly: at each point of the circle the gain times the
distances from the zeros, over the distances from the poles, where a root that is not real counts
for itself and its conjugate (`factor`).  Distances are those of the plane (`modulus`).
-/

namespace ZPlane

namespace Response

/-- The distance from the origin. -/
noncomputable def modulus (z : Complex ℝ) : ℝ := √(z.re ^ 2 + z.im ^ 2)

/-- The magnitude of a number is its modulus. -/
theorem norm_eq_modulus (z : Complex ℝ) : z.norm = modulus z := rfl

/-! ### Factors of the roots -/

/-- What a root contributes at `x`: no factor if it vanishes, its linear factor if it is real, and
else those of the root and of its conjugate. -/
noncomputable def factor (x z : Complex ℝ) : Complex ℝ :=
  if |z.re| < Scalar.tolerance ∧ |z.im| < Scalar.tolerance then 1
  else if |z.im| < Scalar.tolerance then x - z
  else (x - z) * (x - ⟨z.re, -z.im⟩)

/-- What all roots contribute at `x`. -/
noncomputable def factors (roots : List (Complex ℝ)) (x : Complex ℝ) : Complex ℝ :=
  (roots.map (factor x)).prod

/-- A root is expanded into its conjugates first, and what vanishes is left out afterwards. -/
theorem prod_conjugates (x z : Complex ℝ) :
    ((z.conjugates.filter fun r ↦ !r.isZero).map (x - ·)).prod = factor x z := by
  rw [factor, Complex.conjugates]
  by_cases hreal : |z.im| < Scalar.tolerance
  · rw [if_pos (closeTo_zero_iff.mpr hreal)]
    by_cases hzero : |z.re| < Scalar.tolerance
    · have hvanishes := Complex.isZero_iff.mpr ⟨hzero, hreal⟩
      simp [hvanishes, hzero, hreal]
    · have hstays : z.isZero = false := by simp [Complex.isZero_iff, hzero, ← Bool.not_eq_true]
      simp [hstays, hzero, hreal]
  · have hstays : z.isZero = false := by simp [Complex.isZero_iff, hreal, ← Bool.not_eq_true]
    have hconj : x - z.conj = x - ⟨z.re, -z.im⟩ := rfl
    rw [if_neg fun h ↦ hreal (closeTo_zero_iff.mp h)]
    simp [hstays, Complex.isZero_conj, hreal, hconj]

/-- The polynomial of roots is the product of their factors. -/
theorem eval_characteristic (roots : List (Complex ℝ)) (x : Complex ℝ) :
    (characteristic roots).eval x = factors roots x := by
  rw [characteristic, factors, Polynomial.eval_ofRoots]
  induction roots with
  | nil => rfl
  | cons z roots ih =>
      rw [List.flatMap_cons, List.filter_append, List.map_append, List.prod_append,
        prod_conjugates, ih, List.map_cons, List.prod_cons]

/-- Each root adds two factors at most. -/
theorem length_characteristic_le (roots : List (Complex ℝ)) :
    (characteristic roots).coeffs.length ≤ 2 * roots.length + 1 := by
  rw [characteristic, Polynomial.length_coeffs_ofRoots]
  refine Nat.succ_le_succ ((List.length_filter_le _ _).trans ?_)
  induction roots with
  | nil => exact le_rfl
  | cons z roots ih =>
      have hpair : z.conjugates.length ≤ 2 := by
        rw [Complex.conjugates]
        split
        · exact Nat.le_succ 1
        · exact le_rfl
      rw [List.flatMap_cons, List.length_append, List.length_cons]
      omega

/-! ### Magnitudes and frequencies -/

section Values

variable {table : Array ℝ} {ζ : Complex ℝ} {zeros poles : List (Complex ℝ)} {gain : Complex ℝ}
  {size : ℕ} {nyquist : ℝ} {r : Response ℝ}

/-- Both polynomials fit the size. -/
theorem served_of_ofRoots (hr : ofRoots table zeros poles gain size nyquist = .ok r) :
    Fourier.Served (characteristic zeros).coeffs.length size ∧
      Fourier.Served (characteristic poles).coeffs.length size := by
  rw [ofRoots] at hr
  cases habove : Fourier.onCircle table (characteristic zeros).coeffs size with
  | error e =>
      rw [habove] at hr
      cases hr
  | ok above =>
      cases hbelow : Fourier.onCircle table (characteristic poles).coeffs size with
      | error e =>
          rw [habove, hbelow] at hr
          cases hr
      | ok below =>
          exact ⟨Fourier.exists_onCircle_iff.mp ⟨_, habove⟩,
            Fourier.exists_onCircle_iff.mp ⟨_, hbelow⟩⟩

/-- The magnitude that the roots give at `x`. -/
noncomputable def magnitude (zeros poles : List (Complex ℝ)) (gain x : Complex ℝ) : ℝ :=
  modulus gain * modulus (factors zeros x) / modulus (factors poles x)

/-- The response of roots with an exact table is that of their factors on the circle. -/
theorem ofRoots_eq (h : Fourier.IsExact table ζ)
    (hzeros : Fourier.Served (characteristic zeros).coeffs.length size)
    (hpoles : Fourier.Served (characteristic poles).coeffs.length size) :
    ofRoots table zeros poles gain size nyquist = .ok ⟨List.ofFn fun k : Fin (size / 2 + 1) ↦
      magnitude zeros poles gain (Fourier.root ζ size ^ k.val), axis (size / 2) nyquist⟩ := by
  have hhalf : size / 2 + 1 ≤ size := by
    obtain ⟨k, rfl⟩ := hzeros.powerOfTwo
    have := Nat.one_le_two_pow (n := k)
    omega
  rw [ofRoots, Fourier.onCircle_of_isExact h hzeros, Fourier.onCircle_of_isExact h hpoles]
  refine congrArg (fun ms ↦ Except.ok (Response.mk ms (axis (size / 2) nyquist))) ?_
  refine List.ext_getElem (by simp [hhalf]) fun k hk hk' ↦ ?_
  simp only [List.getElem_zipWith, List.getElem_take, List.getElem_ofFn, magnitude,
    ← eval_characteristic, norm_eq_modulus]

/-- The frequencies go up to the highest in equal steps. -/
theorem getElem?_axis {half k : ℕ} (hk : k ≤ half) : (axis half nyquist)[k]? =
    some (if half = 0 then 0 else nyquist * k / half) := by
  rw [axis, List.getElem?_map, List.getElem?_range (Nat.lt_succ_of_le hk), Option.map_some]

end Values

end Response

namespace Design

variable {table : Array ℝ} {ζ : Complex ℝ} {d : Design ℝ} {r : Response ℝ}

/-- The resolution of valid options is the size of a transform. -/
theorem checkSize_of_validate {o : Options ℝ} (ho : o.validate = .ok ()) :
    Fourier.checkSize o.resolution = .ok () := by
  rw [Options.validate] at ho
  cases hsize : Fourier.checkSize o.resolution with
  | error e =>
      rw [hsize] at ho
      cases ho
  | ok => rfl

/-- A design has a response if its options are valid and it has fewer than half as many roots of
each kind as there are points. -/
theorem exists_response (h : Fourier.IsExact table ζ) (ho : d.options.validate = .ok ())
    (hroots : ∀ kind, 2 * (d.roots kind).length < d.options.resolution) :
    ∃ r, d.response table = .ok r := by
  obtain ⟨hpow, hle⟩ := Fourier.checkSize_eq_ok_iff.mp (checkSize_of_validate ho)
  have hserved (kind : RootKind) : Fourier.Served
      (Response.characteristic (d.values kind)).coeffs.length d.options.resolution := by
    refine ⟨hpow, hle, (Response.length_characteristic_le _).trans ?_⟩
    rw [values, List.length_map]
    exact hroots kind
  rw [response, ho]
  dsimp only
  rw [Response.ofRoots_eq h (hserved .zero) (hserved .pole)]
  exact ⟨_, rfl⟩

/-- The response of a design is that of its roots. -/
theorem ofRoots_of_response (hr : d.response table = .ok r) :
    Response.ofRoots table (d.values .zero) (d.values .pole) d.options.gain.value
      d.options.resolution d.options.frequency.value.re = .ok r := by
  rw [response] at hr
  cases hvalid : d.options.validate with
  | error e =>
      rw [hvalid] at hr
      cases hr
  | ok =>
      rw [hvalid] at hr
      dsimp only at hr
      cases hrun : Response.ofRoots table (d.values .zero) (d.values .pole) d.options.gain.value
        d.options.resolution d.options.frequency.value.re with
      | error e =>
          rw [hrun] at hr
          cases hr
      | ok r' =>
          rw [hrun] at hr
          cases hr
          rfl

/-- The response of a design is what its roots say: at each point of the upper half of the circle
the gain times the distances from the zeros over those from the poles, on an axis that goes linearly
up to the frequency.  The products of the factors are the values of the two polynomials.  Where a
pole is at the point itself, the quotient is what the scalars' division by zero gives. -/
theorem response_eq (h : Fourier.IsExact table ζ) (hr : d.response table = .ok r) :
    let size := d.options.resolution
    let half := size / 2
    let w := Fourier.root ζ size
    let nyquist := d.options.frequency.value.re
    let zeros := d.zeros.map Root.value
    let poles := d.poles.map Root.value
    Fourier.IsTurn w size ∧ r.magnitudes.length = half + 1 ∧ r.frequencies.length = half + 1 ∧
      ∀ k ≤ half,
        r.magnitudes[k]? = some (Response.modulus d.options.gain.value *
          Response.modulus (Response.factors zeros (w ^ k)) /
          Response.modulus (Response.factors poles (w ^ k))) ∧
        Response.factors zeros (w ^ k) = d.numerator.eval (w ^ k) ∧
        Response.factors poles (w ^ k) = d.denominator.eval (w ^ k) ∧
        ∃ f, r.frequencies[k]? = some f ∧ (half = 0 → f = 0) ∧
          (0 < half → f * half = nyquist * k) := by
  intro size half w nyquist zeros poles
  have hrun := ofRoots_of_response hr
  obtain ⟨hzeros, hpoles⟩ := Response.served_of_ofRoots hrun
  rw [Response.ofRoots_eq h hzeros hpoles] at hrun
  obtain rfl := Except.ok.inj hrun
  refine ⟨?_, by simp [half, size], by simp [Response.axis, half, size], fun k hk ↦
    ⟨?_, ?_, ?_, ?_⟩⟩
  · obtain ⟨j, hj⟩ := hzeros.powerOfTwo
    have hle := hzeros.le_turn
    rw [hj] at hle
    simp only [w, size, hj]
    exact Fourier.isTurn_root h two_ne_zero (Fourier.le_sixteen hle)
  · rw [List.getElem?_ofFn, dif_pos (Nat.lt_succ_of_le hk)]
    rfl
  · exact (Response.eval_characteristic _ _).symm
  · exact (Response.eval_characteristic _ _).symm
  · refine ⟨_, Response.getElem?_axis hk, fun hzero ↦ if_pos hzero, fun hpos ↦ ?_⟩
    have hhalf : (half : ℝ) ≠ 0 := Nat.cast_ne_zero.mpr hpos.ne'
    rw [if_neg hpos.ne', div_mul_cancel₀ _ hhalf]

/-- A zero at `-1` and half of the imaginary unit as a pole, at eight points. -/
theorem response_eq_eight :
    let d : Design ℝ := ⟨[⟨"-1", ⟨-1, 0⟩, none⟩], [⟨"i/2", ⟨0, 1 / 2⟩, none⟩],
      ⟨8, ⟨"2", ⟨2, 0⟩, none⟩, ⟨"1", ⟨1, 0⟩, none⟩⟩⟩
    let x := Fourier.root Fourier.step 8 ^ 3
    Fourier.IsExact Fourier.realSines Fourier.step ∧
    ∃ r, d.response Fourier.realSines = .ok r ∧ Fourier.IsTurn (Fourier.root Fourier.step 8) 8 ∧
      r.magnitudes.length = 5 ∧ r.frequencies.length = 5 ∧ 3 ≤ 4 ∧
      r.magnitudes[3]? = some (Response.modulus ⟨2, 0⟩ *
        Response.modulus (Response.factors [⟨-1, 0⟩] x) /
        Response.modulus (Response.factors [⟨0, 1 / 2⟩] x)) ∧
      Response.factors [⟨-1, 0⟩] x = d.numerator.eval x ∧
      Response.factors [⟨0, 1 / 2⟩] x = d.denominator.eval x ∧
      ∃ f, r.frequencies[3]? = some f ∧ f * 4 = 1 * 3 := by
  intro d x
  have hsize : Fourier.checkSize 8 = .ok () := Fourier.checkSize_two_pow (k := 3) (by decide)
  have hvalid : d.options.validate = .ok () := by rw [Options.validate, hsize]
  have hroots (kind : RootKind) : 2 * (d.roots kind).length < d.options.resolution := by
    cases kind with
    | pole | zero => decide
  obtain ⟨r, hr⟩ := exists_response Fourier.isExact_realSines hvalid hroots
  obtain ⟨hturn, hmagnitudes, hfrequencies, hbins⟩ := response_eq Fourier.isExact_realSines hr
  obtain ⟨hmagnitude, habove, hbelow, f, hf, -, hlinear⟩ := hbins 3 (by decide)
  refine ⟨Fourier.isExact_realSines, r, hr, hturn, ?_, ?_, by decide, hmagnitude, habove, hbelow,
    f, hf, ?_⟩
  · simpa [d] using hmagnitudes
  · simpa [d] using hfrequencies
  · simpa [d] using hlinear (by decide)

end Design

end ZPlane
