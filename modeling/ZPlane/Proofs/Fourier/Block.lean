import Mathlib
import ZPlane.Proofs.Fourier.Circle

/-!
# The blocks of a transform

A transform works on a buffer of real and a buffer of imaginary parts.  `Block` is what one level of
the decimation is given: its views of the sine table and its part of both buffers.  A block of four
points is transformed at once, and any other one is halved (`halves?`); `Visits` are the blocks that
are come to in that way.  The invariant is `Fits`: a block of `2 ^ j` points has both views at the
stride `turn / 2 ^ j`.  Halving keeps it, so that all reads of the table are inside it, and ends at
blocks of four.
-/

namespace ZPlane

namespace Fourier

/-- A part of both buffers, with the views for its factors. -/
structure Block (α : Type) where
  sin : View
  cos : View
  real : List α
  imag : List α

namespace Block

variable {α : Type}

/-- The block on which the transform of two buffers starts. -/
def whole (real imag : List α) : Block α := ⟨.sines real.length, .cosines real.length, real, imag⟩

def points (b : Block α) : List (Complex α) := List.zipWith Complex.mk b.real b.imag

def half (b : Block α) : ℕ := b.real.length / 2

theorem length_points {b : Block α} (h : b.imag.length = b.real.length) :
    b.points.length = b.real.length := by
  simp [points, h]

/-! ### Halving -/

section Halving

variable [Add α] [Sub α] [Mul α]

/-- The sums of the halves. -/
def sums (b : Block α) : Block α where
  sin := b.sin.every 2
  cos := b.cos.every 2
  real := List.zipWith (· + ·) (b.real.take b.half) (b.real.drop b.half)
  imag := List.zipWith (· + ·) (b.imag.take b.half) (b.imag.drop b.half)

/-- The differences of the halves, turned by the factors. -/
def differences (b : Block α) (ws : List (Complex α)) : Block α :=
  let nr := List.zipWith (· - ·) (b.real.take b.half) (b.real.drop b.half)
  let ni := List.zipWith (· - ·) (b.imag.take b.half) (b.imag.drop b.half)
  { sin := b.sin.every 2
    cos := b.cos.every 2
    real := List.zipWith (· - ·) (List.zipWith (· * ·.re) nr ws) (List.zipWith (· * ·.im) ni ws)
    imag := List.zipWith (· + ·) (List.zipWith (· * ·.im) nr ws) (List.zipWith (· * ·.re) ni ws) }

/-- The two blocks that a block is halved into, if the table has the factors. -/
def halves? (table : Array α) (b : Block α) : Option (Block α × Block α) :=
  (twiddles? table b.sin b.cos b.half).map fun ws ↦ (b.sums, b.differences ws)

/-- The decimation of `start` comes to a block: it halves every block that is not of four points. -/
inductive Visits (table : Array α) (start : Block α) : Block α → Prop
  | start : Visits table start start
  | sums {b s d : Block α} : Visits table start b → b.real.length ≠ 4 →
      b.halves? table = some (s, d) → Visits table start s
  | differences {b s d : Block α} : Visits table start b → b.real.length ≠ 4 →
      b.halves? table = some (s, d) → Visits table start d

/-- What the decimation makes of a block, with as many levels as its length asks for. -/
def decimated? (table : Array α) (b : Block α) : Option (List (Complex α)) :=
  decimate? table (b.real.length.log2 - 2) b.sin b.cos b.points

variable {table : Array α} {b : Block α}

omit [Sub α] [Mul α] in
/-- The sums of the buffers are the sums of the points. -/
theorem points_sums (h : b.imag.length = b.real.length) :
    b.sums.points = List.zipWith (· + ·) (b.points.take b.half) (b.points.drop b.half) := by
  refine List.ext_getElem (by simp [points, sums, h]) fun n hn hn' ↦ ?_
  simp only [points, sums, List.getElem_zipWith, List.getElem_take, List.getElem_drop]
  rfl

/-- The differences of the buffers, turned, are the differences of the points times the factors. -/
theorem points_differences (h : b.imag.length = b.real.length) (ws : List (Complex α)) :
    (b.differences ws).points = List.zipWith (· * ·)
      (List.zipWith (· - ·) (b.points.take b.half) (b.points.drop b.half)) ws := by
  refine List.ext_getElem (by simp [points, differences, h]) fun n hn hn' ↦ ?_
  simp only [points, differences, List.getElem_zipWith, List.getElem_take, List.getElem_drop]
  rfl

/-- A level of the decimation goes on with the two halves. -/
theorem decimate?_succ (h : b.imag.length = b.real.length) (l : ℕ) :
    decimate? table (l + 1) b.sin b.cos b.points = (b.halves? table).bind fun x ↦
      (decimate? table l x.1.sin x.1.cos x.1.points).bind fun es ↦
        (decimate? table l x.2.sin x.2.cos x.2.points).bind fun os ↦ some (es ++ os) := by
  rw [decimate?, length_points h, halves?]
  change (twiddles? table b.sin b.cos b.half).bind _ = _
  cases twiddles? table b.sin b.cos b.half with
  | none => rfl
  | some ws =>
      rw [Option.map_some, Option.bind_some, Option.bind_some, points_sums h,
        points_differences h]
      rfl

end Halving

/-! ### The invariant -/

/-- Both buffers have `2 ^ j` entries, and the views are those for as many points. -/
structure Fits (b : Block α) (j : ℕ) : Prop where
  length_real : b.real.length = 2 ^ j
  length_imag : b.imag.length = 2 ^ j
  sin_eq : b.sin = .sines (2 ^ j)
  cos_eq : b.cos = .cosines (2 ^ j)

namespace Fits

section Cutting

variable {b : Block α} {j : ℕ}

/-- The block on which a transform starts has the views for its points. -/
theorem whole {real imag : List α} (hreal : real.length = 2 ^ j) (himag : imag.length = 2 ^ j) :
    (whole real imag).Fits j :=
  ⟨hreal, himag, by rw [Block.whole, hreal], by rw [Block.whole, hreal]⟩

theorem imag_eq_real (h : b.Fits j) : b.imag.length = b.real.length :=
  h.length_imag.trans h.length_real.symm

theorem half_eq (h : b.Fits (j + 1)) : b.half = 2 ^ j := by
  rw [half, h.length_real, pow_succ, Nat.mul_div_cancel _ Nat.two_pos]

/-- Both buffers are cut in the middle. -/
theorem length_halves (h : b.Fits (j + 1)) {buffer : List α} (hb : buffer ∈ [b.real, b.imag]) :
    (buffer.take b.half).length = 2 ^ j ∧ (buffer.drop b.half).length = 2 ^ j := by
  have hlength : buffer.length = 2 ^ j + 2 ^ j := by
    rw [← mul_two, ← pow_succ]
    rcases List.mem_pair.mp hb with rfl | rfl
    · exact h.length_real
    · exact h.length_imag
  rw [List.length_take, List.length_drop, hlength, h.half_eq]
  omega

/-- The factors for half a block are in the table: the sines within half a turn of its start, and
the cosines a quarter turn further on. -/
theorem index_lt (h : b.Fits (j + 1)) (hj : j + 1 ≤ 16) {i : ℕ} (hi : i < 2 ^ j) :
    b.sin.index i < turn ∧ b.cos.index i < turn := by
  have hlt := mul_stride_lt hj hi
  rw [h.sin_eq, h.cos_eq]
  simp only [View.index, View.sines, View.cosines, turn] at hlt ⊢
  omega

end Cutting

variable [Add α] [Sub α] [Mul α] {table : Array α} {b s d : Block α} {j : ℕ}

omit [Sub α] [Mul α] in
/-- The sums have half of the points, and the views for as many. -/
theorem sums (h : b.Fits (j + 1)) (hj : j + 1 ≤ 16) : b.sums.Fits j := by
  obtain ⟨hreal, hreal'⟩ := h.length_halves List.mem_cons_self
  obtain ⟨himag, himag'⟩ := h.length_halves (List.mem_cons_of_mem b.real List.mem_cons_self)
  refine ⟨?_, ?_, ?_, ?_⟩
  · simp only [Block.sums, List.length_zipWith, hreal, hreal', min_self]
  · simp only [Block.sums, List.length_zipWith, himag, himag', min_self]
  · rw [Block.sums, h.sin_eq, (every_two hj).1]
  · rw [Block.sums, h.cos_eq, (every_two hj).2]

/-- The differences have half of the points, and the views for as many. -/
theorem differences (h : b.Fits (j + 1)) (hj : j + 1 ≤ 16) {ws : List (Complex α)}
    (hws : ws.length = 2 ^ j) : (b.differences ws).Fits j := by
  obtain ⟨hreal, hreal'⟩ := h.length_halves List.mem_cons_self
  obtain ⟨himag, himag'⟩ := h.length_halves (List.mem_cons_of_mem b.real List.mem_cons_self)
  refine ⟨?_, ?_, ?_, ?_⟩
  · simp only [Block.differences, List.length_zipWith, hreal, hreal', himag, himag', hws, min_self]
  · simp only [Block.differences, List.length_zipWith, hreal, hreal', himag, himag', hws, min_self]
  · rw [Block.differences, h.sin_eq, (every_two hj).1]
  · rw [Block.differences, h.cos_eq, (every_two hj).2]

/-- A block that fits and is not of four points is halved into two that fit, of four points at
least. -/
theorem exists_halves (htable : turn ≤ table.size) (h : b.Fits j) (hj : 2 ≤ j) (hj16 : j ≤ 16)
    (hfour : b.real.length ≠ 4) :
    ∃ i s d, j = i + 1 ∧ 2 ≤ i ∧ b.halves? table = some (s, d) ∧ s.Fits i ∧ d.Fits i := by
  obtain ⟨i, rfl⟩ : ∃ i, j = i + 1 := Nat.exists_eq_add_of_le' (by omega)
  have hi : i ≠ 1 := by
    rintro rfl
    exact hfour h.length_real
  obtain ⟨ws, hws, hlength⟩ := exists_twiddles? htable hj16
  refine ⟨i, b.sums, b.differences ws, rfl, by omega, ?_, h.sums hj16, h.differences hj16 hlength⟩
  rw [halves?, h.sin_eq, h.cos_eq, h.half_eq, hws, Option.map_some]

/-- All blocks that are come to fit, and none has less than four points. -/
theorem visits {start : Block α} {k : ℕ} (htable : turn ≤ table.size) (hstart : start.Fits k)
    (hk : 2 ≤ k) (hk16 : k ≤ 16) (hb : Visits table start b) : ∃ j, 2 ≤ j ∧ j ≤ k ∧ b.Fits j := by
  induction hb with
  | start => exact ⟨k, hk, le_rfl, hstart⟩
  | sums _ hfour hhalves ih =>
      obtain ⟨j, hj, hjk, hc⟩ := ih
      obtain ⟨i, s, d, rfl, hi, hsome, hs, -⟩ :=
        hc.exists_halves htable hj (hjk.trans hk16) hfour
      obtain ⟨rfl, -⟩ := Prod.mk.inj (Option.some.inj (hhalves.symm.trans hsome))
      exact ⟨i, hi, by omega, hs⟩
  | differences _ hfour hhalves ih =>
      obtain ⟨j, hj, hjk, hc⟩ := ih
      obtain ⟨i, s, d, rfl, hi, hsome, -, hd⟩ :=
        hc.exists_halves htable hj (hjk.trans hk16) hfour
      obtain ⟨-, rfl⟩ := Prod.mk.inj (Option.some.inj (hhalves.symm.trans hsome))
      exact ⟨i, hi, by omega, hd⟩

/-- A block of four points is transformed at once. -/
theorem decimated?_of_four (h : b.Fits 2) :
    ∃ p q r t, b.points = [p, q, r, t] ∧ b.decimated? table = some (quad p q r t) := by
  have hlength : b.points.length = 4 := (length_points h.imag_eq_real).trans h.length_real
  obtain ⟨p, q, r, t, hpoints⟩ := List.length_eq_four.mp hlength
  refine ⟨p, q, r, t, hpoints, ?_⟩
  rw [decimated?, h.length_real, hpoints]
  rfl

/-- The values of a block are those of its two halves, one after the other. -/
theorem decimated?_of_halves (h : b.Fits (j + 1)) (hj : 2 ≤ j) (hs : s.Fits j) (hd : d.Fits j)
    (hb : b.halves? table = some (s, d)) : b.decimated? table =
      (s.decimated? table).bind fun es ↦ (d.decimated? table).bind fun os ↦ some (es ++ os) := by
  rw [decimated?, decimated?, decimated?, h.length_real, hs.length_real, hd.length_real,
    Nat.log2_two_pow, Nat.log2_two_pow, show j + 1 - 2 = j - 2 + 1 by omega,
    decimate?_succ h.imag_eq_real, hb, Option.bind_some]

end Fits

/-! ### Safety -/

/-- Nothing outside the table or the buffers is read at a block of `2 ^ j` points: the factors are
in the table, both buffers are cut in the middle, and the values are those of four points or come
from two blocks of half the length. -/
structure Safe [Add α] [Sub α] [Mul α] (table : Array α) (b : Block α) (j : ℕ) : Prop where
  length_real : b.real.length = 2 ^ j
  length_imag : b.imag.length = 2 ^ j
  step_sin : b.sin.step = turn / 2 ^ j
  step_cos : b.cos.step = turn / 2 ^ j
  reads : ∀ i < 2 ^ j / 2, b.sin.index i < table.size ∧ b.cos.index i < table.size
  cuts : ∀ buffer ∈ [b.real, b.imag], (buffer.take b.half).length = 2 ^ j / 2 ∧
    (buffer.drop b.half).length = 2 ^ j / 2
  four : b.real.length = 4 → ∃ p q r t, b.points = [p, q, r, t] ∧
    b.decimated? table = some (quad p q r t)
  halved : b.real.length ≠ 4 → ∃ s d, b.halves? table = some (s, d) ∧
    s.real.length = 2 ^ j / 2 ∧ s.imag.length = 2 ^ j / 2 ∧
    d.real.length = 2 ^ j / 2 ∧ d.imag.length = 2 ^ j / 2 ∧
    b.decimated? table =
      (s.decimated? table).bind fun es ↦ (d.decimated? table).bind fun os ↦ some (es ++ os)

/-- Nothing outside the table or the buffers is read at a block of a transform. -/
theorem Fits.safe [Add α] [Sub α] [Mul α] {table : Array α} {b : Block α} {j : ℕ}
    (htable : turn ≤ table.size) (h : b.Fits j) (hj : 2 ≤ j) (hj16 : j ≤ 16) :
    b.Safe table j := by
  have hhalf : 2 ^ j / 2 = 2 ^ (j - 1) := by
    rw [show j = j - 1 + 1 by omega, pow_succ, Nat.mul_div_cancel _ Nat.two_pos,
      Nat.add_sub_cancel]
  have hpred : b.Fits (j - 1 + 1) := by rwa [Nat.sub_add_cancel (by omega)]
  refine ⟨h.length_real, h.length_imag, by rw [h.sin_eq]; rfl, by rw [h.cos_eq]; rfl,
    fun i hi ↦ ?_, fun buffer hb ↦ ?_, fun hfour ↦ ?_, fun hfour ↦ ?_⟩
  · obtain ⟨hsin, hcos⟩ := hpred.index_lt (by omega) (hhalf ▸ hi)
    exact ⟨hsin.trans_le htable, hcos.trans_le htable⟩
  · rw [hhalf]
    exact hpred.length_halves hb
  · have htwo : j = 2 := Nat.pow_right_injective le_rfl (h.length_real.symm.trans hfour)
    exact (htwo ▸ h).decimated?_of_four
  · obtain ⟨i, s, d, rfl, hi, hhalves, hs, hd⟩ := h.exists_halves htable hj hj16 hfour
    rw [hhalf, Nat.add_sub_cancel]
    exact ⟨s, d, hhalves, hs.length_real, hs.length_imag, hd.length_real, hd.length_imag,
      h.decimated?_of_halves hi hs hd hhalves⟩

end Block

section Transforms

variable {α : Type} [Add α] [Sub α] [Mul α] {table : Array α} {real imag : List α} {k : ℕ}

/-- The transform of one or two points does not read the table. -/
theorem transform?_of_length_le_two {xs : List (Complex α)} (hxs : xs.length ≤ 2)
    (table' : Array α) : transform? table xs = transform? table' xs :=
  match xs, hxs with
  | [], _ => rfl
  | [_], _ => rfl
  | [_, _], _ => rfl

/-- The transform decimates the whole block and puts its values in their places. -/
theorem transform?_whole (h : imag.length = real.length) (hlong : 2 < real.length) :
    transform? table (Block.whole real imag).points =
      ((Block.whole real imag).decimated? table).bind fun ys ↦
        some (unscramble ys.toArray).toList := by
  have hlength := Block.length_points (b := Block.whole real imag) h
  rw [transform?_of_two_lt (hlength ▸ hlong), hlength]
  rfl

/-- Each size has a transform, and whatever the entries of the table are, all that is read is in the
table and in the buffers: at every block that the decimation comes to, and for every swap.  One and
two points need no table.  The trailing zeros of a size are its exponent, which is at most the 16
bits that are reversed. -/
theorem transform_stays_inside (htable : table.size = turn) (hk : 2 ^ k ≤ turn)
    (hreal : real.length = 2 ^ k) (himag : imag.length = 2 ^ k) :
    (∃ ys, fft table real imag = .ok ys ∧ ys.length = 2 ^ k ∧
      transform? table (Block.whole real imag).points = some ys) ∧
    (k < 2 → ∀ table', transform? table (Block.whole real imag).points =
      transform? table' (Block.whole real imag).points) ∧
    (2 ≤ k →
      transform? table (Block.whole real imag).points =
        ((Block.whole real imag).decimated? table).bind (fun ys ↦
          some (unscramble ys.toArray).toList) ∧
      ∀ b, Block.Visits table (Block.whole real imag) b →
        ∃ j, 2 ≤ j ∧ j ≤ k ∧ b.Safe table j) ∧
    ((2 ^ k).log2 = padicValNat 2 (2 ^ k) ∧ padicValNat 2 (2 ^ k) ≤ 16) ∧
    ∀ i < 2 ^ k, reversal (2 ^ k).log2 i < 2 ^ k := by
  have hk16 : k ≤ 16 := le_sixteen hk
  have heq : imag.length = real.length := himag.trans hreal.symm
  have hpoints : (Block.whole real imag).points.length = 2 ^ k :=
    (Block.length_points (b := Block.whole real imag) heq).trans hreal
  refine ⟨?_, fun hk2 table' ↦ ?_, fun hk2 ↦ ⟨?_, fun b hb ↦ ?_⟩, ⟨?_, ?_⟩, fun i hi ↦ ?_⟩
  · obtain ⟨ys, hys, hlength⟩ := exists_transform? htable.ge hk16 _ hpoints
    refine ⟨ys, ?_, hlength, hys⟩
    rw [fft, if_neg (by simp [heq]), hreal, checkSize_two_pow hk]
    change Except.ok ((transform? table (Block.whole real imag).points).getD []) = _
    rw [hys, Option.getD_some]
  · refine transform?_of_length_le_two ?_ table'
    rw [hpoints]
    interval_cases k <;> decide
  · refine transform?_whole heq ?_
    rw [hreal]
    exact lt_of_lt_of_le (show 2 < 2 ^ 2 by decide) (Nat.pow_le_pow_right Nat.two_pos hk2)
  · obtain ⟨j, hj, hjk, hfits⟩ := (Block.Fits.whole hreal himag).visits htable.ge hk2 hk16 hb
    exact ⟨j, hj, hjk, hfits.safe htable.ge hj (hjk.trans hk16)⟩
  · rw [Nat.log2_two_pow, padicValNat.prime_pow]
  · rwa [padicValNat.prime_pow]
  · rw [Nat.log2_two_pow]
    exact reversal_lt hk16 hi

/-- The largest size, with the table in use. -/
theorem transform_stays_inside_turn :
    let ones : List Binary64 := List.replicate (2 ^ 16) 1
    sineTable.size = turn ∧ 2 ^ 16 ≤ turn ∧ ones.length = 2 ^ 16 ∧
      (∃ ys, fft sineTable ones ones = .ok ys ∧ ys.length = 2 ^ 16 ∧
        transform? sineTable (Block.whole ones ones).points = some ys) ∧
      ∀ b, Block.Visits sineTable (Block.whole ones ones) b →
        ∃ j, 2 ≤ j ∧ j ≤ 16 ∧ b.Safe sineTable j := by
  intro ones
  have htable : sineTable.size = turn := by simp [sineTable]
  have hones : ones.length = 2 ^ 16 := List.length_replicate
  obtain ⟨hvalue, -, hblocks, -⟩ :=
    transform_stays_inside htable (k := 16) (by decide) hones hones
  exact ⟨htable, by decide, hones, hvalue, (hblocks (by decide)).2⟩

end Transforms

end Fourier

end ZPlane
