import Mathlib
import ZPlane.Fourier.Transform
import ZPlane.Proofs.Complex.Ring
import ZPlane.Proofs.Fourier.BitReversal

/-!
# The transform is the discrete Fourier transform

With exact scalars and an exact sine table, the values that `decimate?` leaves in bit-reversed order
are the sums `∑ x n * w ^ (m * n)`.  One level of the decimation splits the even from the odd `m`,
and the odd ones use that `w` to half the size is `-1`.
-/

namespace ZPlane

namespace Fourier

variable {α : Type} [CommRing α]

/-! ### Exact tables -/

/-- The table holds the powers of `ζ`, sines from the start and cosines a quarter turn on, and a
quarter turn of `ζ` is the imaginary unit. -/
structure IsExact (table : Array α) (ζ : Complex α) : Prop where
  quarter : ζ ^ (turn / 4) = Complex.i
  sine : ∀ i < 3 * turn / 4, table[i]? = some (ζ ^ i).im
  cosine : ∀ i < 3 * turn / 4, table[i + turn / 4]? = some (ζ ^ i).re

/-- The root of unity for a block of `n` points. -/
def root (ζ : Complex α) (n : ℕ) : Complex α := ζ ^ (turn / n)

section Root

variable {table : Array α} {ζ : Complex α}

theorem turn_div_two_pow {k : ℕ} (hk : k ≤ 16) : turn / 2 ^ k = 2 ^ (16 - k) := by
  rw [show turn = 2 ^ 16 from rfl, Nat.pow_div hk Nat.two_pos]

theorem root_four (h : IsExact table ζ) : root ζ 4 = Complex.i := h.quarter

/-- The root of unity for half of the points is the square. -/
theorem root_sq {k : ℕ} (hk : k + 1 ≤ 16) : root ζ (2 ^ (k + 1)) ^ 2 = root ζ (2 ^ k) := by
  rw [root, root, turn_div_two_pow hk, turn_div_two_pow (by omega), ← pow_mul, ← pow_succ]
  congr 2
  omega

theorem IsExact.half (h : IsExact table ζ) : ζ ^ (turn / 2) = -1 := by
  rw [show turn / 2 = turn / 4 * 2 from rfl, pow_mul, h.quarter, sq, Complex.i_mul_i]

/-- Half of the steps of a size are half a turn. -/
theorem root_pow_half (h : IsExact table ζ) {k : ℕ} (hk : k + 1 ≤ 16) :
    root ζ (2 ^ (k + 1)) ^ 2 ^ k = -1 := by
  rw [root, ← pow_mul, turn_div_two_pow hk, ← pow_add, ← h.half]
  congr 1
  rw [show 16 - (k + 1) + k = 15 by omega]
  rfl

/-- The steps of a size are a turn. -/
theorem root_pow_self (h : IsExact table ζ) {k : ℕ} (hk : k ≤ 16) :
    root ζ (2 ^ k) ^ 2 ^ k = 1 := by
  rw [root, ← pow_mul, turn_div_two_pow hk, ← pow_add, show 16 - k + k = 15 + 1 by omega, pow_succ,
    pow_mul, show (2 : ℕ) ^ 15 = turn / 2 from rfl, h.half, neg_one_sq]

end Root

/-! ### One level of the decimation -/

/-- The value of the points at `w ^ m`. -/
def bin (w : Complex α) (xs : List (Complex α)) (m : ℕ) : Complex α :=
  ∑ n ∈ Finset.range xs.length, xs.getD n 0 * w ^ (m * n)

section Level

variable {xs : List (Complex α)} {h : ℕ}

theorem getD_zipWith_halves (f : Complex α → Complex α → Complex α) (hxs : xs.length = h + h)
    {n : ℕ} (hn : n < h) :
    (List.zipWith f (xs.take h) (xs.drop h)).getD n 0 = f (xs.getD n 0) (xs.getD (h + n) 0) := by
  simp only [List.getD_eq_getElem?_getD, List.getElem?_zipWith, List.getElem?_drop,
    List.getElem?_take_of_lt hn, List.getElem?_eq_getElem (show n < xs.length by omega),
    List.getElem?_eq_getElem (show h + n < xs.length by omega), Option.getD_some]

/-- A bin sums over both halves. -/
theorem bin_halves (w : Complex α) (hxs : xs.length = h + h) (m : ℕ) :
    bin w xs m = ∑ n ∈ Finset.range h,
      (xs.getD n 0 * w ^ (m * n) + xs.getD (h + n) 0 * w ^ (m * (h + n))) := by
  rw [bin, hxs, Finset.sum_range_add, Finset.sum_add_distrib]

/-- The even values are those of the sums of the halves. -/
theorem bin_even {w : Complex α} (hw : w ^ h = -1) (hxs : xs.length = h + h) (r : ℕ) :
    bin w xs (2 * r) = bin (w ^ 2) (List.zipWith (· + ·) (xs.take h) (xs.drop h)) r := by
  rw [bin_halves w hxs, bin, List.length_zipWith, List.length_take, List.length_drop, hxs,
    show min (min h (h + h)) (h + h - h) = h by omega]
  refine Finset.sum_congr rfl fun n hn ↦ ?_
  rw [getD_zipWith_halves _ hxs (Finset.mem_range.mp hn)]
  have hsign : w ^ (2 * r * (h + n)) = w ^ (2 * r * n) := by
    rw [show 2 * r * (h + n) = h * (2 * r) + 2 * r * n by ring, pow_add, pow_mul, hw, pow_mul,
      neg_one_sq, one_pow, one_mul]
  rw [hsign, ← pow_mul, mul_assoc 2 r n]
  ring

/-- The odd values are those of the twisted differences of the halves. -/
theorem bin_odd {w : Complex α} (hw : w ^ h = -1) (hxs : xs.length = h + h) (r : ℕ) :
    bin w xs (2 * r + 1) = bin (w ^ 2) (List.zipWith (· * ·)
      (List.zipWith (· - ·) (xs.take h) (xs.drop h)) ((List.range h).map (w ^ ·))) r := by
  rw [bin_halves w hxs, bin]
  simp only [List.length_zipWith, List.length_take, List.length_drop, List.length_map,
    List.length_range, hxs, show min (min (min h (h + h)) (h + h - h)) h = h by omega]
  refine Finset.sum_congr rfl fun n hn ↦ ?_
  have hn' : n < h := Finset.mem_range.mp hn
  have htwist : (List.zipWith (· * ·) (List.zipWith (· - ·) (xs.take h) (xs.drop h))
      ((List.range h).map (w ^ ·))).getD n 0 = (xs.getD n 0 - xs.getD (h + n) 0) * w ^ n := by
    rw [← getD_zipWith_halves (· - ·) hxs hn']
    simp [List.getD_eq_getElem?_getD, hn', hxs]
  have hsign : w ^ ((2 * r + 1) * (h + n)) = -w ^ ((2 * r + 1) * n) := by
    rw [show (2 * r + 1) * (h + n) = h * (2 * r + 1) + (2 * r + 1) * n by ring, pow_add, pow_mul,
      hw, pow_succ, pow_mul, neg_one_sq, one_pow, one_mul, neg_one_mul]
  rw [htwist, hsign, show (2 * r + 1) * n = n + 2 * (r * n) by ring, pow_add, pow_mul w 2]
  ring

end Level

/-! ### The decimation -/

section Decimation

variable {table : Array α} {ζ : Complex α}

/-- Every second entry of a view is the view for half of the points. -/
theorem every_two {k : ℕ} (hk : k + 1 ≤ 16) :
    (View.sines (2 ^ (k + 1))).every 2 = .sines (2 ^ k) ∧
      (View.cosines (2 ^ (k + 1))).every 2 = .cosines (2 ^ k) := by
  have hstep : turn / 2 ^ (k + 1) * 2 = turn / 2 ^ k := by
    rw [turn_div_two_pow hk, turn_div_two_pow (by omega), ← pow_succ]
    congr 1
    omega
  simp [View.sines, View.cosines, View.every, hstep]

/-- The factors of a level are within half a turn. -/
theorem mul_stride_lt {k n : ℕ} (hk : k + 1 ≤ 16) (hn : n < 2 ^ k) :
    n * (turn / 2 ^ (k + 1)) < turn / 2 := by
  have hhalf : 2 ^ k * (turn / 2 ^ (k + 1)) = turn / 2 := by
    rw [turn_div_two_pow hk, ← pow_add, show k + (16 - (k + 1)) = 15 by omega]
    rfl
  have hpos : 0 < turn / 2 ^ (k + 1) := by
    rw [turn_div_two_pow hk]
    positivity
  rw [← hhalf]
  exact Nat.mul_lt_mul_of_pos_right hn hpos

/-- A list is mapped if each of its elements is. -/
theorem exists_mapM {β γ : Type} {f : β → Option γ} {P : β → γ → Prop} {xs : List β}
    (hf : ∀ x ∈ xs, ∃ y, f x = some y ∧ P x y) :
    ∃ ys, xs.mapM f = some ys ∧ List.Forall₂ P xs ys := by
  induction xs with
  | nil => exact ⟨[], rfl, .nil⟩
  | cons x xs ih =>
      obtain ⟨y, hy, hxy⟩ := hf x List.mem_cons_self
      obtain ⟨ys, hys, hall⟩ := ih fun z hz ↦ hf z (List.mem_cons_of_mem x hz)
      refine ⟨y :: ys, ?_, .cons hxy hall⟩
      rw [List.mapM_cons, hy, hys]
      rfl

/-- The factors of a level are the powers of its root. -/
theorem twiddles?_eq (h : IsExact table ζ) {k : ℕ} (hk : k + 1 ≤ 16) :
    twiddles? table (.sines (2 ^ (k + 1))) (.cosines (2 ^ (k + 1))) (2 ^ k) =
      some ((List.range (2 ^ k)).map (root ζ (2 ^ (k + 1)) ^ ·)) := by
  have hentry : ∀ n ∈ List.range (2 ^ k), ∃ w : Complex α, (do
      let s ← table[(View.sines (2 ^ (k + 1))).index n]?
      let c ← table[(View.cosines (2 ^ (k + 1))).index n]?
      some ⟨c, s⟩) = some w ∧ root ζ (2 ^ (k + 1)) ^ n = w := by
    intro n hn
    have hplace : n * (turn / 2 ^ (k + 1)) < 3 * turn / 4 :=
      lt_trans (mul_stride_lt hk (List.mem_range.mp hn)) (by decide)
    have hs := h.sine _ hplace
    have hc := h.cosine _ hplace
    have hpow : root ζ (2 ^ (k + 1)) ^ n = ζ ^ (n * (turn / 2 ^ (k + 1))) := by
      rw [root, ← pow_mul, mul_comm]
    rw [add_comm] at hc
    refine ⟨_, ?_, rfl⟩
    simp only [View.sines, View.cosines, View.index, zero_add, hs, hc, hpow]
    rfl
  obtain ⟨ws, hws, hall⟩ := exists_mapM hentry
  rw [← List.forall₂_map_left_iff, List.forall₂_eq_eq_eq] at hall
  exact hws.trans (congrArg some hall.symm)

/-- Four points need no table. -/
theorem quad_eq {w : Complex α} (hw : w = Complex.i) (a b c d : Complex α) :
    quad a b c d = [bin w [a, b, c, d] 0, bin w [a, b, c, d] 2, bin w [a, b, c, d] 1,
      bin w [a, b, c, d] 3] := by
  have hsq : w ^ 2 = -1 := by rw [hw, sq, Complex.i_mul_i]
  have hturn : (⟨d.im - b.im, b.re - d.re⟩ : Complex α) = w * (b - d) := by
    rw [hw]
    ext <;> simp
  have hbin (m : ℕ) :
      bin w [a, b, c, d] m = a + b * w ^ m + c * (w ^ 2) ^ m + d * (w ^ 2) ^ m * w ^ m := by
    simp only [bin, List.length_cons, List.length_nil, Finset.sum_range_succ, Finset.sum_range_zero,
      List.getD_cons_zero, List.getD_cons_succ, ← pow_mul, mul_assoc, ← pow_add]
    ring
  simp only [quad, hturn, hbin, hsq]
  congr 1
  · ring
  congr 1
  · ring
  congr 1
  · ring
  congr 1
  rw [pow_succ w 2, hsq]
  ring

/-- The decimation gives the bins, with the bits of their indices reversed. -/
theorem decimate?_eq (h : IsExact table ζ) (l : ℕ) (hl : l + 2 ≤ 16) (xs : List (Complex α))
    (hxs : xs.length = 2 ^ (l + 2)) :
    ∃ ys, decimate? table l (.sines (2 ^ (l + 2))) (.cosines (2 ^ (l + 2))) xs = some ys ∧
      ys.length = 2 ^ (l + 2) ∧ ∀ j < 2 ^ (l + 2),
        ys[j]? = some (bin (root ζ (2 ^ (l + 2))) xs (reversal (l + 2) j)) := by
  induction l generalizing xs with
  | zero =>
      obtain ⟨a, b, c, d, rfl⟩ := List.length_eq_four.mp hxs
      refine ⟨_, rfl, rfl, fun j hj ↦ ?_⟩
      rw [quad_eq (root_four h)]
      have hj' : j < 4 := hj
      interval_cases j <;> rfl
  | succ l ih =>
      have hhalf : xs.length = 2 ^ (l + 2) + 2 ^ (l + 2) := by rw [hxs, pow_succ, mul_two]
      have hw := root_pow_half h hl
      obtain ⟨es, he, hel, hev⟩ := ih (by omega)
        (List.zipWith (· + ·) (xs.take (2 ^ (l + 2))) (xs.drop (2 ^ (l + 2))))
        (by simp [hhalf])
      obtain ⟨os, ho, hol, hov⟩ := ih (by omega)
        (List.zipWith (· * ·) (List.zipWith (· - ·) (xs.take (2 ^ (l + 2))) (xs.drop (2 ^ (l + 2))))
          ((List.range (2 ^ (l + 2))).map (root ζ (2 ^ (l + 3)) ^ ·)))
        (by simp [hhalf])
      refine ⟨es ++ os, ?_, ?_, ?_⟩
      · rw [decimate?]
        simp only [show xs.length / 2 = 2 ^ (l + 2) by omega, twiddles?_eq h hl, every_two hl,
          Option.bind_eq_bind, Option.bind_some, he, ho]
      · rw [List.length_append, hel, hol, pow_succ _ (l + 2), mul_two]
      · intro j hj
        rw [pow_succ, mul_two] at hj
        by_cases hlow : j < 2 ^ (l + 2)
        · rw [List.getElem?_append_left (by omega), hev j hlow, reversal_succ_of_lt hl hlow,
            bin_even hw hhalf, root_sq hl]
        · obtain ⟨i, rfl⟩ := Nat.exists_eq_add_of_le (not_lt.mp hlow)
          have hi : i < 2 ^ (l + 2) := by omega
          rw [List.getElem?_append_right (by omega), hel, Nat.add_sub_cancel_left, hov i hi,
            reversal_succ_add hl hi, bin_odd hw hhalf, root_sq hl]

/-- Three points or more are decimated, and their values put in their places. -/
theorem transform?_of_two_lt {β : Type} [Add β] [Sub β] [Mul β] {table : Array β}
    {xs : List (Complex β)} (hxs : 2 < xs.length) :
    transform? table xs = (decimate? table (xs.length.log2 - 2) (.sines xs.length)
      (.cosines xs.length) xs).bind fun ys ↦ some (unscramble ys.toArray).toList :=
  match xs, hxs with
  | _ :: _ :: _ :: _, _ => rfl

/-- The transform has all values, in natural order. -/
theorem transform?_eq (h : IsExact table ζ) {k : ℕ} (hk : k ≤ 16) (xs : List (Complex α))
    (hxs : xs.length = 2 ^ k) :
    transform? table xs = some (List.ofFn fun m : Fin (2 ^ k) ↦ bin (root ζ (2 ^ k)) xs m) := by
  match k, hk, hxs with
  | 0, _, hxs =>
    obtain ⟨a, rfl⟩ := List.length_eq_one_iff.mp hxs
    simp [transform?, bin]
  | 1, hk, hxs =>
    obtain ⟨a, b, rfl⟩ := List.length_eq_two.mp hxs
    have hw : root ζ 2 = -1 := by simpa using root_pow_half h (k := 0) hk
    simp [transform?, bin, Finset.sum_range_succ, hw, sub_eq_add_neg]
  | l + 2, hk, hxs =>
    have hlong : 2 < xs.length := by
      rw [hxs, pow_add]
      have := Nat.one_le_two_pow (n := l)
      omega
    obtain ⟨ys, hys, hlen, hval⟩ := decimate?_eq h l hk xs hxs
    rw [transform?_of_two_lt hlong, hxs, Nat.log2_two_pow, Nat.add_sub_cancel, hys,
      Option.bind_some]
    congr 1
    refine List.ext_getElem? fun m ↦ ?_
    by_cases hm : m < 2 ^ (l + 2)
    · rw [Array.getElem?_toList, getElem?_unscramble hk (by simpa using hlen) hm,
        List.getElem?_toArray, hval _ (reversal_lt hk hm), reversal_reversal hk hm,
        List.getElem?_ofFn, dif_pos hm]
    · rw [List.getElem?_eq_none (by simpa [hlen] using hm),
        List.getElem?_eq_none (by simpa using hm)]

end Decimation

/-! ### The table of real sines -/

/-- The angle of the `i`th entry. -/
noncomputable def angle (i : ℕ) : ℝ := 2 * Real.pi * i / turn

/-- The sines of a turn in exact arithmetic. -/
noncomputable def realSines : Array ℝ := Array.ofFn fun i : Fin turn ↦ Real.sin (angle i)

/-- One step along the turn. -/
noncomputable def step : Complex ℝ := ⟨Real.cos (angle 1), Real.sin (angle 1)⟩

/-- The steps along the turn have the cosines and sines of the angles. -/
theorem step_pow (i : ℕ) : step ^ i = ⟨Real.cos (angle i), Real.sin (angle i)⟩ := by
  induction i with
  | zero => ext <;> simp [angle]
  | succ i ih =>
      have hangle : angle (i + 1) = angle i + angle 1 := by
        simp only [angle]
        push_cast
        ring
      rw [pow_succ, ih, hangle, Real.cos_add, Real.sin_add]
      ext
      · simp [step]
      · simp only [Complex.mul_im, step]
        ring

/-- The table of real sines is exact. -/
theorem isExact_realSines : IsExact realSines step where
  quarter := by
    have hquarter : angle (turn / 4) = Real.pi / 2 := by
      simp only [angle, turn]
      push_cast
      ring
    rw [step_pow, hquarter, Real.cos_pi_div_two, Real.sin_pi_div_two]
    rfl
  sine i hi := by
    have hsize : i < turn := lt_trans hi (by decide)
    simp [realSines, hsize, step_pow]
  cosine i hi := by
    have hsize : i + turn / 4 < turn := Nat.add_lt_of_lt_sub (lt_of_lt_of_eq hi (by decide))
    have hangle : angle (i + turn / 4) = angle i + Real.pi / 2 := by
      simp only [angle, turn]
      push_cast
      ring
    simp [realSines, hsize, step_pow, hangle, Real.sin_add_pi_div_two]

/-! ### The transform of two buffers -/

section Buffers

variable {table : Array α} {ζ : Complex α}

theorem checkSize_two_pow {k : ℕ} (hk : 2 ^ k ≤ turn) : checkSize (2 ^ k) = .ok () := by
  have hpow : isPowerOfTwo (2 ^ k) = true := by
    simp [isPowerOfTwo, Nat.log2_two_pow, Nat.shiftLeft_eq]
  rw [checkSize, hpow, if_neg (by decide), if_neg (not_lt.mpr hk)]

/-- The buffers are left with the discrete Fourier transform of their points, in natural order, at
the powers of a root of unity of their length. -/
theorem fft_eq_dft (h : IsExact table ζ) {k : ℕ} (hk : 2 ^ k ≤ turn) (re im : Fin (2 ^ k) → α) :
    fft table (List.ofFn re) (List.ofFn im) = .ok (List.ofFn fun m : Fin (2 ^ k) ↦
      ∑ n : Fin (2 ^ k), (⟨re n, im n⟩ : Complex α) * root ζ (2 ^ k) ^ (m.val * n.val)) ∧
      root ζ (2 ^ k) ^ 2 ^ k = 1 ∧ ∀ j, k = j + 1 → root ζ (2 ^ k) ^ 2 ^ j = -1 := by
  have hk16 : k ≤ 16 := (Nat.pow_le_pow_iff_right Nat.one_lt_two).mp (show 2 ^ k ≤ 2 ^ 16 from hk)
  refine ⟨?_, root_pow_self h hk16, fun j hj ↦ ?_⟩
  · have hzip : List.zipWith Complex.mk (List.ofFn re) (List.ofFn im) =
        List.ofFn fun n ↦ (⟨re n, im n⟩ : Complex α) := by
      refine List.ext_getElem (by simp) fun n hn hn' ↦ ?_
      simp
    rw [fft, if_neg (by simp), hzip, List.length_ofFn, checkSize_two_pow hk,
      transform?_eq h hk16 _ (by simp)]
    simp only [bin, List.length_ofFn, Finset.sum_range]
    simp [bind, Except.bind]
  · subst hj
    exact root_pow_half h hk16

/-- Eight points with the real sines. -/
theorem fft_eq_dft_eight :
    IsExact realSines step ∧ 2 ^ 3 ≤ turn ∧
      fft realSines (List.ofFn fun n : Fin (2 ^ 3) ↦ (n : ℝ)) (List.ofFn fun _ : Fin (2 ^ 3) ↦ 1) =
        .ok (List.ofFn fun m : Fin (2 ^ 3) ↦
          ∑ n : Fin (2 ^ 3), (⟨n, 1⟩ : Complex ℝ) * root step (2 ^ 3) ^ (m.val * n.val)) :=
  ⟨isExact_realSines, by decide,
    (fft_eq_dft isExact_realSines (k := 3) (by decide) (fun n ↦ n) fun _ ↦ 1).1⟩

end Buffers

end Fourier

end ZPlane
