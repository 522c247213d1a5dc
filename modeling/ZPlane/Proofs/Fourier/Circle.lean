import Mathlib
import ZPlane.Proofs.Fourier.Transform
import ZPlane.Proofs.Polynomial.Eval

/-!
# Values on the unit circle

A request for the values of a polynomial on the circle is refused for its size first, and then for
its degree (`Refused`).  On any scalars it is answered otherwise, with one value for each point: all
reads of the sine table are inside it.  In exact arithmetic the values are those that Horner's rule
gives at the powers of a primitive root of unity.
-/

namespace ZPlane

namespace Fourier

/-! ### Sizes -/

/-- The test for a power of two is exact. -/
theorem isPowerOfTwo_iff {n : ℕ} : isPowerOfTwo n = true ↔ ∃ k, n = 2 ^ k := by
  constructor
  · intro h
    simp only [isPowerOfTwo, Nat.shiftLeft_eq, one_mul, Bool.and_eq_true, decide_eq_true_eq] at h
    exact ⟨n.log2, h.2.symm⟩
  · rintro ⟨k, rfl⟩
    simp [isPowerOfTwo, Nat.log2_two_pow, Nat.shiftLeft_eq]

theorem le_sixteen {k : ℕ} (hk : 2 ^ k ≤ turn) : k ≤ 16 :=
  (Nat.pow_le_pow_iff_right Nat.one_lt_two).mp (show 2 ^ k ≤ 2 ^ 16 from hk)

/-- The sizes are the powers of two up to that of the table. -/
theorem checkSize_eq_ok_iff {size : ℕ} :
    checkSize size = .ok () ↔ (∃ k, size = 2 ^ k) ∧ size ≤ turn := by
  constructor
  · intro h
    rw [checkSize] at h
    split at h
    · cases h
    · split at h
      · cases h
      · exact ⟨isPowerOfTwo_iff.mp (eq_true_of_ne_false ‹_›), not_lt.mp ‹_›⟩
  · rintro ⟨⟨k, rfl⟩, hle⟩
    exact checkSize_two_pow hle

/-- Why values at `size` points are refused for `count` coefficients: the first reason counts. -/
inductive Refused (count size : ℕ) : TransformError → Prop
  | notPowerOfTwo : (¬ ∃ k, size = 2 ^ k) → Refused count size (.notPowerOfTwo size)
  | tooLarge : (∃ k, size = 2 ^ k) → turn < size → Refused count size (.tooLarge size turn)
  | degreeTooHigh : (∃ k, size = 2 ^ k) → size ≤ turn → size < count →
    Refused count size (.degreeTooHigh (count - 1) size)

/-- There is a point for each coefficient, and the table can serve as many. -/
structure Served (count size : ℕ) : Prop where
  powerOfTwo : ∃ k, size = 2 ^ k
  le_turn : size ≤ turn
  count_le : count ≤ size

section Requests

variable {β : Type} [Zero β] [Add β] [Sub β] [Mul β] {table : Array β}
variable {coeffs : List (Complex β)} {size : ℕ} {e : TransformError}

/-- What is served is the transform of the coefficients, with zeros up to the size. -/
theorem onCircle_of_served (h : Served coeffs.length size) : onCircle table coeffs size =
    .ok ((transform? table (coeffs ++ List.replicate (size - coeffs.length) 0)).getD []) := by
  obtain ⟨k, rfl⟩ := h.powerOfTwo
  rw [onCircle, checkSize_two_pow h.le_turn]
  exact if_neg (not_lt.mpr h.count_le)

/-- What is refused fails for the reason. -/
theorem onCircle_of_refused (h : Refused coeffs.length size e) :
    onCircle table coeffs size = .error e := by
  cases h with
  | notPowerOfTwo hpow =>
      rw [← isPowerOfTwo_iff, Bool.not_eq_true] at hpow
      rw [onCircle, checkSize, if_pos hpow]
      rfl
  | tooLarge hpow hlarge =>
      rw [← isPowerOfTwo_iff] at hpow
      rw [onCircle, checkSize, hpow, if_neg (by decide), if_pos hlarge]
      rfl
  | degreeTooHigh hpow hle hlt =>
      obtain ⟨k, rfl⟩ := hpow
      rw [onCircle, checkSize_two_pow hle]
      exact if_pos hlt

/-- There is no third case. -/
theorem served_or_refused (count size : ℕ) : Served count size ∨ ∃ e, Refused count size e := by
  by_cases hpow : ∃ k, size = 2 ^ k
  · by_cases hle : size ≤ turn
    · by_cases hcount : count ≤ size
      · exact .inl ⟨hpow, hle, hcount⟩
      · exact .inr ⟨_, .degreeTooHigh hpow hle (not_le.mp hcount)⟩
    · exact .inr ⟨_, .tooLarge hpow (not_le.mp hle)⟩
  · exact .inr ⟨_, .notPowerOfTwo hpow⟩

theorem Served.not_refused {count : ℕ} (h : Served count size) : ¬ Refused count size e
  | .notPowerOfTwo hpow => hpow h.powerOfTwo
  | .tooLarge _ hlarge => not_lt.mpr h.le_turn hlarge
  | .degreeTooHigh _ _ hlt => not_lt.mpr h.count_le hlt

/-- Requests fail for the reasons for which they are refused. -/
theorem onCircle_eq_error_iff :
    onCircle table coeffs size = .error e ↔ Refused coeffs.length size e := by
  refine ⟨fun h ↦ ?_, onCircle_of_refused⟩
  rcases served_or_refused coeffs.length size with hserved | ⟨e', hrefused⟩
  · rw [onCircle_of_served hserved] at h
    cases h
  · rw [onCircle_of_refused hrefused] at h
    cases h
    exact hrefused

/-- Requests that are served have values. -/
theorem exists_onCircle_iff :
    (∃ vs, onCircle table coeffs size = .ok vs) ↔ Served coeffs.length size := by
  refine ⟨fun ⟨vs, h⟩ ↦ ?_, fun h ↦ ⟨_, onCircle_of_served h⟩⟩
  rcases served_or_refused coeffs.length size with hserved | ⟨e', hrefused⟩
  · exact hserved
  · rw [onCircle_of_refused hrefused] at h
    cases h

end Requests

/-! ### All reads are inside the table -/

section Reads

variable {β : Type} {table : Array β}

/-- A table of a turn has the factors of every level. -/
theorem exists_twiddles? (htable : turn ≤ table.size) {k : ℕ} (hk : k + 1 ≤ 16) :
    ∃ ws, twiddles? table (.sines (2 ^ (k + 1))) (.cosines (2 ^ (k + 1))) (2 ^ k) = some ws ∧
      ws.length = 2 ^ k := by
  suffices hentry : ∀ n ∈ List.range (2 ^ k), ∃ w : Complex β, (do
      let s ← table[(View.sines (2 ^ (k + 1))).index n]?
      let c ← table[(View.cosines (2 ^ (k + 1))).index n]?
      some ⟨c, s⟩) = some w by
    obtain ⟨ws, hws, hall⟩ := exists_mapM (P := fun _ _ ↦ True) fun n hn ↦
      (hentry n hn).imp fun _ hw ↦ ⟨hw, trivial⟩
    exact ⟨ws, hws, hall.length_eq.symm.trans List.length_range⟩
  intro n hn
  have hlt := mul_stride_lt hk (List.mem_range.mp hn)
  have hsin : (View.sines (2 ^ (k + 1))).index n < table.size := by
    simp only [View.sines, View.index, turn] at *
    omega
  have hcos : (View.cosines (2 ^ (k + 1))).index n < table.size := by
    simp only [View.cosines, View.index, turn] at *
    omega
  rw [Array.getElem?_eq_getElem hsin, Array.getElem?_eq_getElem hcos]
  exact ⟨_, rfl⟩

variable [Add β] [Sub β] [Mul β]

/-- A table of a turn is enough for a decimation. -/
theorem exists_decimate? (htable : turn ≤ table.size) (l : ℕ) (hl : l + 2 ≤ 16)
    (xs : List (Complex β)) (hxs : xs.length = 2 ^ (l + 2)) :
    ∃ ys, decimate? table l (.sines (2 ^ (l + 2))) (.cosines (2 ^ (l + 2))) xs = some ys ∧
      ys.length = 2 ^ (l + 2) := by
  induction l generalizing xs with
  | zero =>
      obtain ⟨a, b, c, d, rfl⟩ := List.length_eq_four.mp hxs
      exact ⟨_, rfl, rfl⟩
  | succ l ih =>
      have hhalf : xs.length = 2 ^ (l + 2) + 2 ^ (l + 2) := by rw [hxs, pow_succ, mul_two]
      obtain ⟨ws, hws, hlen⟩ := exists_twiddles? htable hl
      obtain ⟨es, he, hel⟩ := ih (by omega)
        (List.zipWith (· + ·) (xs.take (2 ^ (l + 2))) (xs.drop (2 ^ (l + 2)))) (by simp [hhalf])
      obtain ⟨os, ho, hol⟩ := ih (by omega)
        (List.zipWith (· * ·) (List.zipWith (· - ·) (xs.take (2 ^ (l + 2))) (xs.drop (2 ^ (l + 2))))
          ws) (by simp [hhalf, hlen])
      refine ⟨es ++ os, ?_, ?_⟩
      · rw [decimate?]
        simp only [show xs.length / 2 = 2 ^ (l + 2) by omega, hws, every_two hl,
          Option.bind_eq_bind, Option.bind_some, he, ho]
      · rw [List.length_append, hel, hol, pow_succ _ (l + 2), mul_two]

/-- A table of a turn is enough for a transform. -/
theorem exists_transform? (htable : turn ≤ table.size) {k : ℕ} (hk : k ≤ 16)
    (xs : List (Complex β)) (hxs : xs.length = 2 ^ k) :
    ∃ ys, transform? table xs = some ys ∧ ys.length = 2 ^ k := by
  match k, hk, hxs with
  | 0, _, hxs =>
    obtain ⟨a, rfl⟩ := List.length_eq_one_iff.mp hxs
    exact ⟨_, rfl, rfl⟩
  | 1, _, hxs =>
    obtain ⟨a, b, rfl⟩ := List.length_eq_two.mp hxs
    exact ⟨_, rfl, rfl⟩
  | l + 2, hk, hxs =>
    have hlong : 2 < xs.length := by
      rw [hxs, pow_add]
      have := Nat.one_le_two_pow (n := l)
      omega
    obtain ⟨ys, hys, hlen⟩ := exists_decimate? htable l hk xs hxs
    refine ⟨(unscramble ys.toArray).toList, ?_, by simp [hlen]⟩
    rw [transform?_of_two_lt hlong, hxs, Nat.log2_two_pow, Nat.add_sub_cancel, hys,
      Option.bind_some]

end Reads

section Lengths

variable {β : Type} [Zero β] [Add β] [Sub β] [Mul β] {table : Array β}
variable {coeffs vs : List (Complex β)} {size : ℕ}

theorem length_of_onCircle (htable : turn ≤ table.size)
    (h : onCircle table coeffs size = .ok vs) : vs.length = size := by
  have hserved := exists_onCircle_iff.mp ⟨vs, h⟩
  rw [onCircle_of_served hserved] at h
  obtain ⟨⟨k, rfl⟩, hle, hcount⟩ := hserved
  obtain ⟨ys, hys, hlen⟩ := exists_transform? htable (le_sixteen hle)
    (coeffs ++ List.replicate (2 ^ k - coeffs.length) 0) (by simp [hcount])
  rw [hys] at h
  exact Except.ok.inj h ▸ hlen

end Lengths

/-! ### Values -/

section Values

variable {α : Type} [CommRing α] {table : Array α} {ζ : Complex α}

/-- A bin is a value of the polynomial with the points for coefficients. -/
theorem bin_eq_eval (w : Complex α) (xs : List (Complex α)) (m : ℕ) :
    bin w xs m = (⟨xs⟩ : Polynomial (Complex α)).eval (w ^ m) := by
  rw [bin, Polynomial.eval_eq_sum]
  simp only [pow_mul]

/-- The transform of the coefficients agrees with Horner's rule. -/
theorem onCircle_of_isExact (h : IsExact table ζ) {coeffs : List (Complex α)} {size : ℕ}
    (hserved : Served coeffs.length size) : onCircle table coeffs size =
      .ok (List.ofFn fun m : Fin size ↦
        (⟨coeffs⟩ : Polynomial (Complex α)).eval (root ζ size ^ m.val)) := by
  rw [onCircle_of_served hserved]
  obtain ⟨⟨k, rfl⟩, hle, hcount⟩ := hserved
  rw [transform?_eq h (le_sixteen hle) _ (by simp [hcount]), Option.getD_some]
  simp only [bin_eq_eval, Polynomial.eval_append_zeros]

/-- The root of unity of a size: it is primitive, and a quarter turn of it is the imaginary unit, so
it goes round in the positive sense. -/
structure IsTurn (w : Complex α) (size : ℕ) : Prop where
  primitive : IsPrimitiveRoot w size
  quarter : ∀ j, size = 2 ^ (j + 2) → w ^ 2 ^ j = Complex.i

theorem neg_one_ne_one (htwo : (2 : α) ≠ 0) : (-1 : Complex α) ≠ 1 := by
  intro h
  have hre : (-1 : α) = 1 := congrArg Complex.re h
  apply htwo
  rw [← one_add_one_eq_two]
  nth_rewrite 1 [← hre]
  exact neg_add_cancel 1

/-- The factors that an exact table is read for go once round the circle. -/
theorem isTurn_root (h : IsExact table ζ) (htwo : (2 : α) ≠ 0) {k : ℕ} (hk : k ≤ 16) :
    IsTurn (root ζ (2 ^ k)) (2 ^ k) where
  primitive := by
    cases k with
    | zero => exact (pow_one _).symm.trans (root_pow_self h hk) ▸ IsPrimitiveRoot.one
    | succ k =>
        have horder : orderOf (root ζ (2 ^ (k + 1))) = 2 ^ (k + 1) := by
          refine orderOf_eq_prime_pow ?_ (root_pow_self h hk)
          rw [root_pow_half h hk]
          exact neg_one_ne_one htwo
        nth_rewrite 2 [← horder]
        exact IsPrimitiveRoot.orderOf _
  quarter j hj := by
    have hkj : k = j + 2 := Nat.pow_right_injective le_rfl hj
    subst hkj
    have hturn : turn / 2 ^ (j + 2) * 2 ^ j = turn / 4 := by
      rw [turn_div_two_pow hk, ← pow_add, show 16 - (j + 2) + j = 14 by omega]
      rfl
    rw [root, ← pow_mul, hturn, h.quarter]

theorem angle_div_two_pow {k : ℕ} (hk : k ≤ 16) :
    angle (turn / 2 ^ k) = 2 * Real.pi / ((2 ^ k : ℕ) : ℝ) := by
  have hsplit : turn = 2 ^ (16 - k) * 2 ^ k := by
    rw [← pow_add, show 16 - k + k = 16 by omega]
    rfl
  rw [angle, turn_div_two_pow hk, hsplit]
  push_cast
  field_simp

/-- With the real sines it is `e ^ (2 π i / size)`. -/
theorem root_step {k : ℕ} (hk : k ≤ 16) : root step (2 ^ k) =
    ⟨Real.cos (2 * Real.pi / (2 ^ k : ℕ)), Real.sin (2 * Real.pi / (2 ^ k : ℕ))⟩ := by
  rw [root, step_pow, angle_div_two_pow hk]

/-- A request on any scalars is refused for the first reason that there is, and otherwise answered
with a value for each point.  In exact arithmetic that is the value of the polynomial, by Horner's
rule, at the power of a primitive root of unity. -/
theorem onCircle_eq_eval (size : ℕ) :
    (∀ {β : Type} [Zero β] [Add β] [Sub β] [Mul β] (table : Array β) (coeffs : List (Complex β)),
      turn ≤ table.size →
      ((∃ vs, onCircle table coeffs size = .ok vs) ↔ Served coeffs.length size) ∧
      (∀ vs, onCircle table coeffs size = .ok vs → vs.length = size) ∧
      ∀ e, onCircle table coeffs size = .error e ↔ Refused coeffs.length size e) ∧
    ∀ {α : Type} [CommRing α] {table : Array α} {ζ : Complex α} (coeffs : List (Complex α)),
      IsExact table ζ → Served coeffs.length size →
      ((2 : α) ≠ 0 → IsTurn (root ζ size) size) ∧
      ∃ vs, onCircle table coeffs size = .ok vs ∧ vs.length = size ∧
        ∀ k < size, vs[k]? = some ((⟨coeffs⟩ : Polynomial (Complex α)).eval (root ζ size ^ k)) := by
  refine ⟨fun table coeffs htable ↦ ⟨exists_onCircle_iff, fun vs ↦ length_of_onCircle htable,
    fun e ↦ onCircle_eq_error_iff⟩, fun coeffs h hserved ↦ ⟨fun htwo ↦ ?_, ?_⟩⟩
  · obtain ⟨⟨k, rfl⟩, hle, -⟩ := hserved
    exact isTurn_root h htwo (le_sixteen hle)
  · refine ⟨_, onCircle_of_isExact h hserved, List.length_ofFn, fun k hk ↦ ?_⟩
    rw [List.getElem?_ofFn, dif_pos hk]

/-- Three coefficients, at four points, at six and at more than the table can serve, and five at
four points. -/
theorem onCircle_eq_eval_four :
    let ones (n : ℕ) : List (Complex Binary64) := List.replicate n 1
    let coeffs : List (Complex ℝ) := [1, 0, Complex.i]
    (∃ vs, onCircle sineTable (ones 3) 4 = .ok vs ∧ vs.length = 4) ∧
    onCircle sineTable (ones 3) 6 = .error (.notPowerOfTwo 6) ∧
    onCircle sineTable (ones 3) 131072 = .error (.tooLarge 131072 65536) ∧
    onCircle sineTable (ones 5) 4 = .error (.degreeTooHigh 4 4) ∧
    IsExact realSines step ∧ (2 : ℝ) ≠ 0 ∧ Served coeffs.length 4 ∧
      root step 4 = ⟨Real.cos (2 * Real.pi / 4), Real.sin (2 * Real.pi / 4)⟩ ∧
      IsTurn (root step 4) 4 ∧ ∃ vs, onCircle realSines coeffs 4 = .ok vs ∧ vs.length = 4 ∧
        ∀ k < 4, vs[k]? = some ((⟨coeffs⟩ : Polynomial (Complex ℝ)).eval (root step 4 ^ k)) := by
  intro ones coeffs
  have htable : turn ≤ sineTable.size := by simp [sineTable]
  have hfour : Served 3 4 := ⟨⟨2, rfl⟩, by decide, by decide⟩
  have hsix : ¬ ∃ k, 6 = 2 ^ k := by
    rw [← isPowerOfTwo_iff]
    decide
  obtain ⟨hok, hlength, herror⟩ := (onCircle_eq_eval 4).1 sineTable (ones 3) htable
  obtain ⟨vs, hvs⟩ := hok.mpr hfour
  have hroot := root_step (k := 2) (by decide)
  norm_num at hroot
  obtain ⟨hturn, hvalues⟩ := (onCircle_eq_eval 4).2 coeffs isExact_realSines hfour
  refine ⟨⟨vs, hvs, hlength vs hvs⟩, ?_, ?_, ?_, isExact_realSines, two_ne_zero, hfour, hroot,
    hturn two_ne_zero, hvalues⟩
  · exact (((onCircle_eq_eval 6).1 sineTable (ones 3) htable).2.2 _).mpr (.notPowerOfTwo hsix)
  · exact (((onCircle_eq_eval 131072).1 sineTable (ones 3) htable).2.2 _).mpr
      (.tooLarge ⟨17, rfl⟩ (by decide))
  · exact (((onCircle_eq_eval 4).1 sineTable (ones 5) htable).2.2 _).mpr
      (.degreeTooHigh ⟨2, rfl⟩ (by decide) (by decide))

end Values

end Fourier

end ZPlane
