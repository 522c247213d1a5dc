import Mathlib
import ZPlane.Design.Basic
import ZPlane.Proofs.Fourier.Circle
import ZPlane.Proofs.Number.Closeness

/-!
# When a design has a response

A root adds as many factors to its polynomial as its tolerance tests say (`factorCount`), and none
of its arithmetic can fail, so whether a design has a response depends on its resolution, on the
errors of its options and on two sums of factors.  `Refused` lists the reasons against a response
in the order in which they are looked for, with what is reported.
-/

namespace ZPlane

namespace Response

/-! ### Degrees -/

/-- Each root adds as many factors as are left of it and its conjugate. -/
theorem length_coeffs_characteristic {α : Type} [Zero α] [One α] [Add α] [Sub α] [Mul α] [Neg α]
    [LT α] [DecidableLT α] [Scalar α] (roots : List (Complex α)) :
    (characteristic roots).coeffs.length =
      (roots.map fun z ↦ (z.conjugates.filter fun r ↦ !r.isZero).length).sum + 1 := by
  rw [characteristic, Polynomial.length_coeffs_ofRoots, List.filter_flatMap, List.length_flatMap]

/-- The number of factors that a root adds: none if it is zero within the tolerance, one if it is
real within it, and else one for itself and one for its conjugate.  A part that is a NaN is within
no tolerance. -/
def factorCount (z : Complex Binary64) : ℕ :=
  if z.re.abs < Scalar.tolerance ∧ z.im.abs < Scalar.tolerance then 0
  else if z.im.abs < Scalar.tolerance then 1
  else 2

/-- The degree of the polynomial with the roots. -/
def degree (roots : List (Complex Binary64)) : ℕ := (roots.map factorCount).sum

theorem isZero_iff {z : Complex Binary64} :
    z.isZero = true ↔ z.re.abs < Scalar.tolerance ∧ z.im.abs < Scalar.tolerance := by
  rw [Complex.isZero, Complex.isZeroWithin, Bool.and_eq_true, Binary64.closeTo_zero_iff,
    Binary64.closeTo_zero_iff]

theorem isZero_conj (z : Complex Binary64) : z.conj.isZero = z.isZero := by
  rw [Bool.eq_iff_iff, isZero_iff, isZero_iff, Complex.conj, Binary64.abs_neg]

/-- As many factors are made of a root as are counted for it. -/
theorem length_conjugates (z : Complex Binary64) :
    (z.conjugates.filter fun r ↦ !r.isZero).length = factorCount z := by
  rw [factorCount, Complex.conjugates]
  by_cases hreal : z.im.abs < Scalar.tolerance
  · rw [if_pos (Binary64.closeTo_zero_iff.mpr hreal)]
    by_cases hzero : z.re.abs < Scalar.tolerance
    · have hvanishes := isZero_iff.mpr ⟨hzero, hreal⟩
      simp [hvanishes, hzero, hreal]
    · have hstays : z.isZero = false := by simp [isZero_iff, hzero, ← Bool.not_eq_true]
      simp [hstays, hzero, hreal]
  · have hstays : z.isZero = false := by simp [isZero_iff, hreal, ← Bool.not_eq_true]
    rw [if_neg fun h ↦ hreal (Binary64.closeTo_zero_iff.mp h)]
    simp [hstays, isZero_conj, hreal]

/-- The polynomial has a coefficient more than its degree. -/
theorem length_characteristic (roots : List (Complex Binary64)) :
    (characteristic roots).coeffs.length = degree roots + 1 := by
  simp only [length_coeffs_characteristic, length_conjugates, degree]

/-- Only the imaginary part decides between one factor and two, and only numbers are left out. -/
example : [⟨.nan, 0⟩, ⟨0, .nan⟩, ⟨1, 2⟩, 0].map factorCount = [1, 2, 2, 0] := by decide +kernel

/-! ### Two requests for values on the circle -/

section Requests

variable {table : Array Binary64} {zeros poles : List (Complex Binary64)} {gain : Complex Binary64}
  {size : ℕ} {nyquist : Binary64} {r : Response Binary64} {e : TransformError}

/-- A response is refused for the first polynomial that cannot be transformed. -/
theorem ofRoots_eq_error_iff :
    ofRoots table zeros poles gain size nyquist = .error e ↔
      Fourier.Refused (degree zeros + 1) size e ∨
        Fourier.Served (degree zeros + 1) size ∧ Fourier.Refused (degree poles + 1) size e := by
  have hrefused (cs : List (Complex Binary64)) :
      Fourier.onCircle table cs size = .error e ↔ Fourier.Refused cs.length size e :=
    Fourier.onCircle_eq_error_iff
  have hserved (cs : List (Complex Binary64)) :
      (∃ vs, Fourier.onCircle table cs size = .ok vs) ↔ Fourier.Served cs.length size :=
    Fourier.exists_onCircle_iff
  simp only [← length_characteristic, ← hrefused, ← hserved, ofRoots]
  cases Fourier.onCircle table (characteristic zeros).coeffs size with
  | error e' => simp [bind, Except.bind]
  | ok above =>
      cases Fourier.onCircle table (characteristic poles).coeffs size with
      | error e' => simp [bind, Except.bind]
      | ok below => simp [bind, Except.bind]

/-- A response has a value for each point of the upper half circle, both ends included. -/
theorem length_of_ofRoots (htable : Fourier.turn ≤ table.size)
    (h : ofRoots table zeros poles gain size nyquist = .ok r) :
    r.magnitudes.length = size / 2 + 1 ∧ r.frequencies.length = size / 2 + 1 := by
  rw [ofRoots] at h
  cases habove : Fourier.onCircle table (characteristic zeros).coeffs size with
  | error e =>
      rw [habove] at h
      cases h
  | ok above =>
      cases hbelow : Fourier.onCircle table (characteristic poles).coeffs size with
      | error e =>
          rw [habove, hbelow] at h
          cases h
      | ok below =>
          rw [habove, hbelow] at h
          obtain rfl := Except.ok.inj h
          have ha := Fourier.length_of_onCircle htable habove
          have hb := Fourier.length_of_onCircle htable hbelow
          obtain ⟨k, hk⟩ := (Fourier.exists_onCircle_iff.mp ⟨_, habove⟩).powerOfTwo
          have hpos : 0 < size := hk ▸ Nat.two_pow_pos k
          constructor
          · rw [List.length_zipWith, List.length_take, ha, hb]
            omega
          · rw [axis, List.length_map, List.length_range]

end Requests

end Response

namespace Design

open Response (degree)

/-- What a design with a response has: a resolution that the sine table can serve, options without
an error, and fewer factors than points. -/
structure Admitted (d : Design Binary64) : Prop where
  powerOfTwo : ∃ k, d.options.resolution = 2 ^ k
  le_max : d.options.resolution ≤ 65536
  gain : d.options.gain.error = none
  frequency : d.options.frequency.error = none
  zeros : degree (d.values .zero) < d.options.resolution
  poles : degree (d.values .pole) < d.options.resolution

/-- The text for a polynomial of too high a degree. -/
def degreeText (degree size : ℕ) : String :=
  "polynomial degree " ++ toString degree ++ " needs more than " ++ toString size ++
    " frequency bins"

/-- Why a design has no response, with the category and the text of the error.  The first reason
counts, so each comes with the opposite of those before it. -/
inductive Refused (d : Design Binary64) : DesignError.Category → String → Prop
  | notPowerOfTwo (hpow : ¬ ∃ k, d.options.resolution = 2 ^ k) : Refused d .numericalError
      ("FFT size " ++ toString d.options.resolution ++ " is not a power of two")
  | tooLarge (hpow : ∃ k, d.options.resolution = 2 ^ k) (hlarge : 65536 < d.options.resolution) :
      Refused d .numericalError
        ("FFT size " ++ toString d.options.resolution ++ " exceeds the maximum of 65536")
  | gain {reason : String} (hpow : ∃ k, d.options.resolution = 2 ^ k)
      (hle : d.options.resolution ≤ 65536) (hgain : d.options.gain.error = some reason) :
      Refused d .invalidInput ("gain: " ++ reason)
  | frequency {reason : String} (hpow : ∃ k, d.options.resolution = 2 ^ k)
      (hle : d.options.resolution ≤ 65536) (hgain : d.options.gain.error = none)
      (hfrequency : d.options.frequency.error = some reason) :
      Refused d .invalidInput ("frequency: " ++ reason)
  | zeros (hpow : ∃ k, d.options.resolution = 2 ^ k) (hle : d.options.resolution ≤ 65536)
      (hgain : d.options.gain.error = none) (hfrequency : d.options.frequency.error = none)
      (hzeros : d.options.resolution ≤ degree (d.values .zero)) :
      Refused d .numericalError (degreeText (degree (d.values .zero)) d.options.resolution)
  | poles (hpow : ∃ k, d.options.resolution = 2 ^ k) (hle : d.options.resolution ≤ 65536)
      (hgain : d.options.gain.error = none) (hfrequency : d.options.frequency.error = none)
      (hzeros : degree (d.values .zero) < d.options.resolution)
      (hpoles : d.options.resolution ≤ degree (d.values .pole)) :
      Refused d .numericalError (degreeText (degree (d.values .pole)) d.options.resolution)

section Verdict

variable {d : Design Binary64} {c : DesignError.Category} {t : String}

/-- There is no third case. -/
theorem admitted_or_refused (d : Design Binary64) : d.Admitted ∨ ∃ c t, d.Refused c t := by
  by_cases hpow : ∃ k, d.options.resolution = 2 ^ k
  swap; · exact .inr ⟨_, _, .notPowerOfTwo hpow⟩
  by_cases hle : d.options.resolution ≤ 65536
  swap; · exact .inr ⟨_, _, .tooLarge hpow (not_le.mp hle)⟩
  cases hgain : d.options.gain.error with
  | some reason => exact .inr ⟨_, _, .gain hpow hle hgain⟩
  | none =>
      cases hfrequency : d.options.frequency.error with
      | some reason => exact .inr ⟨_, _, .frequency hpow hle hgain hfrequency⟩
      | none =>
          by_cases hzeros : degree (d.values .zero) < d.options.resolution
          swap; · exact .inr ⟨_, _, .zeros hpow hle hgain hfrequency (not_lt.mp hzeros)⟩
          by_cases hpoles : degree (d.values .pole) < d.options.resolution
          swap; · exact .inr ⟨_, _, .poles hpow hle hgain hfrequency hzeros (not_lt.mp hpoles)⟩
          exact .inl ⟨hpow, hle, hgain, hfrequency, hzeros, hpoles⟩

variable {table : Array Binary64}

/-- A resolution that is no size of a transform is refused first. -/
theorem response_of_checkSize {e : TransformError}
    (h : Fourier.checkSize d.options.resolution = .error e) :
    d.response table = .error (.transform e) := by
  rw [response, Options.validate, h]

/-- With valid options the polynomials decide. -/
theorem response_of_valid (hpow : ∃ k, d.options.resolution = 2 ^ k)
    (hle : d.options.resolution ≤ 65536) (hgain : d.options.gain.error = none)
    (hfrequency : d.options.frequency.error = none) : d.response table =
      (Response.ofRoots table (d.values .zero) (d.values .pole) d.options.gain.value
        d.options.resolution d.options.frequency.value.re).mapError .transform := by
  have hsize := Fourier.checkSize_eq_ok_iff.mpr ⟨hpow, hle⟩
  rw [response, Options.validate, hsize, hgain, hfrequency]

/-- A design that is admitted has a response. -/
theorem Admitted.exists_response (h : d.Admitted) : ∃ r, d.response table = .ok r := by
  rw [response_of_valid h.powerOfTwo h.le_max h.gain h.frequency]
  cases hrun : Response.ofRoots table (d.values .zero) (d.values .pole) d.options.gain.value
    d.options.resolution d.options.frequency.value.re with
  | ok r => exact ⟨r, rfl⟩
  | error e =>
      rcases Response.ofRoots_eq_error_iff.mp hrun with hrefused | ⟨-, hrefused⟩
      · exact (Fourier.Served.not_refused ⟨h.powerOfTwo, h.le_max, h.zeros⟩ hrefused).elim
      · exact (Fourier.Served.not_refused ⟨h.powerOfTwo, h.le_max, h.poles⟩ hrefused).elim

/-- What is reported is the reason. -/
theorem Refused.exists_error (h : d.Refused c t) :
    ∃ e, d.response table = .error e ∧ e.category = c ∧ e.detail = t := by
  cases h with
  | notPowerOfTwo hpow =>
      rw [← Fourier.isPowerOfTwo_iff, Bool.not_eq_true] at hpow
      have hsize : Fourier.checkSize d.options.resolution =
          .error (.notPowerOfTwo d.options.resolution) := by rw [Fourier.checkSize, if_pos hpow]
      exact ⟨_, response_of_checkSize hsize, rfl, rfl⟩
  | tooLarge hpow hlarge =>
      rw [← Fourier.isPowerOfTwo_iff] at hpow
      have hsize : Fourier.checkSize d.options.resolution =
          .error (.tooLarge d.options.resolution Fourier.turn) := by
        rw [Fourier.checkSize, hpow, if_neg (by decide)]
        exact if_pos hlarge
      refine ⟨_, response_of_checkSize hsize, rfl, ?_⟩
      exact String.append_assoc
  | gain hpow hle hgain =>
      have hsize := Fourier.checkSize_eq_ok_iff.mpr ⟨hpow, hle⟩
      exact ⟨.gain _, by rw [response, Options.validate, hsize, hgain], rfl, rfl⟩
  | frequency hpow hle hgain hfrequency =>
      have hsize := Fourier.checkSize_eq_ok_iff.mpr ⟨hpow, hle⟩
      exact ⟨.frequency _, by rw [response, Options.validate, hsize, hgain, hfrequency], rfl, rfl⟩
  | zeros hpow hle hgain hfrequency hzeros =>
      rw [response_of_valid hpow hle hgain hfrequency, Response.ofRoots_eq_error_iff.mpr
        (.inl (.degreeTooHigh hpow hle (Nat.lt_succ_of_le hzeros)))]
      exact ⟨_, rfl, rfl, rfl⟩
  | poles hpow hle hgain hfrequency hzeros hpoles =>
      rw [response_of_valid hpow hle hgain hfrequency, Response.ofRoots_eq_error_iff.mpr
        (.inr ⟨⟨hpow, hle, hzeros⟩, .degreeTooHigh hpow hle (Nat.lt_succ_of_le hpoles)⟩)]
      exact ⟨_, rfl, rfl, rfl⟩

/-- The designs with a response are those admitted. -/
theorem exists_response_iff : (∃ r, d.response table = .ok r) ↔ d.Admitted := by
  refine ⟨fun ⟨r, hr⟩ ↦ ?_, Admitted.exists_response⟩
  rcases admitted_or_refused d with h | ⟨c, t, h⟩
  · exact h
  · obtain ⟨e, he, -⟩ : ∃ e, d.response table = .error e ∧ _ := h.exists_error
    rw [hr] at he
    cases he

/-- The errors are the reasons for which designs are refused. -/
theorem exists_error_iff :
    (∃ e, d.response table = .error e ∧ e.category = c ∧ e.detail = t) ↔ d.Refused c t := by
  refine ⟨fun ⟨e, he, hc, ht⟩ ↦ ?_, Refused.exists_error⟩
  rcases admitted_or_refused d with h | ⟨c', t', h⟩
  · obtain ⟨r, hr⟩ : ∃ r, d.response table = .ok r := h.exists_response
    rw [hr] at he
    cases he
  · obtain ⟨e', he', rfl, rfl⟩ : ∃ e, d.response table = .error e ∧ _ := h.exists_error
    rw [he] at he'
    cases he'
    rw [← hc, ← ht]
    exact h

end Verdict

/-- The response of a design has a value for each point of the upper half circle. -/
theorem length_of_response {table : Array Binary64} (htable : Fourier.turn ≤ table.size)
    {d : Design Binary64} {r : Response Binary64} (h : d.response table = .ok r) :
    r.magnitudes.length = d.options.resolution / 2 + 1 ∧
      r.frequencies.length = d.options.resolution / 2 + 1 := by
  obtain ⟨hpow, hle, hgain, hfrequency, -, -⟩ := exists_response_iff.mp ⟨r, h⟩
  rw [response_of_valid hpow hle hgain hfrequency] at h
  cases hrun : Response.ofRoots table (d.values .zero) (d.values .pole) d.options.gain.value
    d.options.resolution d.options.frequency.value.re with
  | error e =>
      rw [hrun] at h
      cases h
  | ok r' =>
      rw [hrun] at h
      obtain rfl := Except.ok.inj h
      exact Response.length_of_ofRoots htable hrun

/-- A design has a response just if it is admitted, and one for every second point of the circle
and one more.  Else the error is that of the first reason there is, in its category and with its
text. -/
theorem response_verdict (d : Design Binary64) :
    ((∃ r, d.response Fourier.sineTable = .ok r) ↔ d.Admitted) ∧
    (∀ r, d.response Fourier.sineTable = .ok r →
      r.magnitudes.length = d.options.resolution / 2 + 1 ∧
        r.frequencies.length = d.options.resolution / 2 + 1) ∧
    ∀ c t, (∃ e, d.response Fourier.sineTable = .error e ∧ e.category = c ∧ e.detail = t) ↔
      d.Refused c t := by
  have htable : Fourier.turn ≤ Fourier.sineTable.size := by simp [Fourier.sineTable]
  refine ⟨exists_response_iff, fun r hr ↦ ?_, fun c t ↦ exists_error_iff⟩
  exact length_of_response htable hr

end Design

end ZPlane
