import Mathlib
import ZPlane.Number.Text
import ZPlane.Proofs.Number.Closeness

/-!
# Decimals that read back

Rounding to binary64 depends on the ratio alone (`nearestRank_congr`), and a finite number is the
nearest to itself (`nearestRank_magnitude`).  So decimals of the same sign and size denote the same
number (`Decimal.toBinary64_congr`), whichever way they are computed, and the shortest decimal of a
number reads back as the number (`toBinary64_shortest`).
-/

namespace ZPlane

/-! ### Rounding a ratio -/

section Nearest

variable {a b c d k : ℕ}

/-- The nearest integer to a ratio does not depend on how the ratio is written. -/
theorem nearest_mul_left (hk : 0 < k) : nearest (k * a) (k * b) = nearest a b := by
  have hlt : 2 * (k * (a % b)) < k * b ↔ 2 * (a % b) < b := by
    rw [mul_left_comm]
    exact Nat.mul_lt_mul_left hk
  have hgt : k * b < 2 * (k * (a % b)) ↔ b < 2 * (a % b) := by
    rw [mul_left_comm]
    exact Nat.mul_lt_mul_left hk
  simp only [nearest, Nat.mul_div_mul_left _ _ hk, Nat.mul_mod_mul_left, hlt, hgt]

/-- Equal ratios have the same nearest integer. -/
theorem nearest_congr (hb : 0 < b) (hd : 0 < d) (h : a * d = c * b) :
    nearest a b = nearest c d := by
  rw [← nearest_mul_left hd, ← nearest_mul_left (a := c) hb, mul_comm d a, h, mul_comm c b,
    mul_comm d b]

theorem nearest_mul_self (hd : 0 < d) : nearest (a * d) d = a := by
  have hdiv : a * d / d = a := Nat.mul_div_cancel a hd
  rw [nearest, Nat.mul_mod_left, hdiv]
  exact if_pos hd

theorem nearest_of_lt (h : 2 * a < b) : nearest a b = 0 := by
  have hab : a < b := by omega
  rw [nearest, Nat.mod_eq_of_lt hab, Nat.div_eq_of_lt hab]
  exact if_pos h

end Nearest

namespace Binary64

section NearestRank

variable {a b c d : ℕ}

/-- The scale does not depend on how the ratio is written. -/
theorem scaleOf_congr (hb : 0 < b) (hd : 0 < d) (h : a * d = c * b) :
    scaleOf a b = scaleOf c d := by
  rw [scaleOf, scaleOf, ← Nat.mul_div_mul_left a b hd, ← Nat.mul_div_mul_left c d hb,
    mul_comm d a, h, mul_comm c b, mul_comm d b]

/-- Equal ratios have the same nearest rank. -/
theorem nearestRank_congr (hb : 0 < b) (hd : 0 < d) (h : a * d = c * b) :
    nearestRank a b = nearestRank c d := by
  have hscale := scaleOf_congr hb hd h
  have hnearest : nearest a (b <<< scaleOf c d) = nearest c (d <<< scaleOf c d) := by
    rw [Nat.shiftLeft_eq, Nat.shiftLeft_eq]
    refine nearest_congr (by positivity) (by positivity) ?_
    rw [← mul_assoc, ← mul_assoc, h]
  simp only [nearestRank, hscale, hnearest]

/-- A ratio of less than half a unit is rounded to zero. -/
theorem nearestRank_of_lt (h : 2 * a < b) : nearestRank a b = 0 := by
  have hscale : scaleOf a b = 0 := by
    rw [scaleOf, Nat.div_eq_of_lt (by omega)]
    rfl
  simp only [nearestRank, hscale, Nat.shiftLeft_zero, nearest_of_lt h]
  exact Nat.min_zero _

/-- Ratios from `2 ^ 2099` on are rounded to infinity. -/
theorem nearestRank_of_le {k : ℕ} (hk : 2099 ≤ k) (hb : 0 < b) (h : 2 ^ k * b ≤ a) :
    nearestRank a b = infinityRank := by
  have hlog : k ≤ (a / b).log2 := by
    have hdiv : 2 ^ k ≤ a / b := (Nat.le_div_iff_mul_le hb).mpr h
    exact (Nat.le_log2 ((Nat.two_pow_pos k).trans_le hdiv).ne').mpr hdiv
  have hscale : 2047 ≤ scaleOf a b := by
    rw [scaleOf]
    omega
  refine Nat.min_eq_left ?_
  calc infinityRank = 2047 * ranksPerScale := rfl
    _ ≤ scaleOf a b * ranksPerScale := Nat.mul_le_mul_right _ hscale
    _ ≤ _ := Nat.le_add_right _ _

end NearestRank

/-! ### A number is the nearest to itself -/

variable {x : Binary64}

/-- The rank is made of the scale and the significand. -/
theorem scale_mul_add_significand (x : Binary64) :
    x.scale * ranksPerScale + x.significand = x.rank := by
  have hsplit := Nat.div_add_mod' x.rank ranksPerScale
  rw [scale, significand]
  split
  case isTrue h => rw [Nat.div_eq_of_lt h, Nat.zero_sub, zero_mul, zero_add]
  case isFalse h =>
    have hone : 1 ≤ x.rank / ranksPerScale :=
      (Nat.one_le_div_iff (by decide)).mpr (not_lt.mp h)
    rw [← add_assoc, ← Nat.succ_mul, Nat.succ_eq_add_one, Nat.sub_add_cancel hone, hsplit]

/-- A finite number has the scale of its magnitude. -/
theorem scaleOf_magnitude (x : Binary64) : scaleOf x.magnitude 1 = x.scale := by
  rw [scaleOf, Nat.div_one, magnitude, significand]
  split
  case isTrue h =>
    have hscale : x.scale = 0 := by rw [scale, Nat.div_eq_of_lt h]
    have hlog : x.rank.log2 ≤ 52 := by
      rcases Nat.eq_zero_or_pos x.rank with hzero | hpos
      · rw [hzero]
        decide
      · exact (Nat.log2_lt hpos.ne').mpr (h.trans_le (by decide)) |>.le
    rw [hscale, Nat.shiftLeft_zero]
    omega
  case isFalse h =>
    -- The significand of a number that is not subnormal has 53 bits.
    have hlower : 2 ^ 52 ≤ ranksPerScale + x.rank % ranksPerScale := Nat.le_add_right _ _
    have hupper : ranksPerScale + x.rank % ranksPerScale < 2 ^ 53 :=
      Nat.add_lt_add_left (Nat.mod_lt _ (by decide)) _
    have hlog : ((ranksPerScale + x.rank % ranksPerScale) <<< x.scale).log2 = 52 + x.scale := by
      rw [Nat.shiftLeft_eq, Nat.log2_eq_iff (by positivity), pow_add, add_right_comm, pow_add]
      exact ⟨Nat.mul_le_mul_right _ hlower, Nat.mul_lt_mul_of_pos_right hupper (by positivity)⟩
    rw [hlog, Nat.add_sub_cancel_left]

/-- A finite number is nearest to itself. -/
theorem nearestRank_magnitude (hx : x.isFinite = true) : nearestRank x.magnitude 1 = x.rank := by
  have hrank : x.rank < infinityRank := by
    rwa [isFinite_eq_decide_rank, decide_eq_true_iff] at hx
  have hnearest : nearest x.magnitude (1 <<< x.scale) = x.significand := by
    rw [magnitude, Nat.shiftLeft_eq, Nat.shiftLeft_eq, one_mul]
    exact nearest_mul_self (by positivity)
  simp only [nearestRank, scaleOf_magnitude, hnearest, scale_mul_add_significand]
  exact Nat.min_eq_right hrank.le

/-! ### Sign and rank -/

/-- The bits of a number are its sign and its rank. -/
theorem bits_toNat_ofRank (negative : Bool) {r : ℕ} (hr : r < 2 ^ 63) :
    (ofRank negative r).bits.toNat = (if negative then 2 ^ 63 else 0) + r := by
  have hr' : r.toUInt64.toNat = r := Nat.mod_eq_of_lt (show r < 2 ^ 64 by omega)
  rw [ofRank, UInt64.toNat_or, hr']
  cases negative with
  | false => simp
  | true => exact (Nat.two_pow_add_eq_or_of_lt hr 1).symm

theorem isNegative_iff : x.isNegative = true ↔ 2 ^ 63 ≤ x.bits.toNat := by
  have hshift : (x.bits >>> 63).toNat = x.bits.toNat / 2 ^ 63 := by
    rw [UInt64.toNat_shiftRight]
    exact Nat.shiftRight_eq_div_pow _ 63
  rw [isNegative, beq_iff_eq, ← UInt64.toNat_inj, hshift]
  have := x.bits.toNat_lt
  show _ = 1 ↔ _
  omega

/-- A number is given by its sign and its rank. -/
theorem ofRank_rank (x : Binary64) : ofRank x.isNegative x.rank = x := by
  have hrank : x.rank < 2 ^ 63 := by
    rw [rank_eq_mod]
    exact Nat.mod_lt _ (by decide)
  have hbits : (ofRank x.isNegative x.rank).bits.toNat = x.bits.toNat := by
    have := x.bits.toNat_lt
    rw [bits_toNat_ofRank _ hrank, rank_eq_mod]
    split
    case isTrue h =>
      have hneg := isNegative_iff.mp h
      omega
    case isFalse h =>
      have hpos := isNegative_iff.not.mp h
      omega
  exact congrArg mk (UInt64.toNat_inj.mp hbits)

end Binary64

/-! ### The size of a decimal -/

namespace Decimal

open Binary64

variable {d d₁ d₂ : Decimal}

/-- The absolute value of a decimal. -/
def size (d : Decimal) : ℚ := d.coefficient * 10 ^ d.exponent

/-- The absolute value of a decimal is a ratio of integers. -/
theorem size_eq_div (d : Decimal) :
    d.size =
      ((d.coefficient * 10 ^ d.exponent.toNat : ℕ) : ℚ) / (10 ^ (-d.exponent).toNat : ℕ) := by
  have hexp : d.exponent = d.exponent.toNat - (-d.exponent).toNat := by omega
  rw [size]
  conv_lhs => rw [hexp, zpow_sub₀ (by norm_num), zpow_natCast, zpow_natCast]
  push_cast
  rw [mul_div_assoc]

/-- Too great a power of ten is infinite. -/
theorem nearestRank_of_tens {c n k : ℕ} (hc : c ≠ 0) (h : 2099 ≤ 3 * n + k) :
    nearestRank ((c * 10 ^ n) <<< k) 1 = infinityRank := by
  refine nearestRank_of_le h Nat.one_pos ?_
  rw [Nat.shiftLeft_eq, mul_one, pow_add]
  refine Nat.mul_le_mul_right _ ?_
  calc 2 ^ (3 * n) = 8 ^ n := pow_mul 2 3 n
    _ ≤ 10 ^ n := Nat.pow_le_pow_left (by decide) n
    _ ≤ c * 10 ^ n := Nat.le_mul_of_pos_left _ (Nat.pos_of_ne_zero hc)

/-- Too small a power of ten is zero. -/
theorem nearestRank_of_tenths {c n k : ℕ} (h : c.log2 + k + 2 ≤ 3 * n) :
    nearestRank (c <<< k) (10 ^ n) = 0 := by
  refine nearestRank_of_lt ?_
  have hc : c < 2 ^ (c.log2 + 1) := Nat.lt_log2_self
  calc 2 * c <<< k = c * 2 ^ (k + 1) := by rw [Nat.shiftLeft_eq]; ring
    _ < 2 ^ (c.log2 + 1) * 2 ^ (k + 1) := Nat.mul_lt_mul_of_pos_right hc (Nat.two_pow_pos _)
    _ = 2 ^ (c.log2 + 1 + (k + 1)) := (pow_add 2 _ _).symm
    _ ≤ 2 ^ (3 * n) := Nat.pow_le_pow_right (by decide) (by omega)
    _ = 8 ^ n := pow_mul 2 3 n
    _ ≤ 10 ^ n := Nat.pow_le_pow_left (by decide) n

/-- The powers that are not computed make no difference: a decimal is rounded as the ratio that it
is, however great or small. -/
theorem toBinary64_eq (d : Decimal) :
    d.toBinary64 = .ofRatio d.negative (d.coefficient * 10 ^ d.exponent.toNat)
      (10 ^ (-d.exponent).toNat) := by
  rw [toBinary64]
  split
  case isTrue hzero =>
    rw [hzero, zero_mul, ofRatio, nearestRank_of_lt]
    rw [Nat.zero_shiftLeft, mul_zero]
    exact Nat.pow_pos (by decide)
  case isFalse hzero =>
    split
    case isTrue hgreat =>
      have hone : (-d.exponent).toNat = 0 := by omega
      rw [hone, pow_zero, ofRatio, nearestRank_of_tens hzero (by omega)]
    case isFalse =>
      split
      case isTrue hsmall =>
        have hone : d.exponent.toNat = 0 := by omega
        rw [hone, pow_zero, mul_one, ofRatio, nearestRank_of_tenths (by omega)]
      case isFalse =>
        split
        case isTrue hpos =>
          have hone : (-d.exponent).toNat = 0 := by omega
          rw [hone, pow_zero]
          rfl
        case isFalse hneg =>
          have hone : d.exponent.toNat = 0 := by omega
          rw [hone, pow_zero, mul_one]
          rfl

/-- Decimals of the same sign and size denote the same number. -/
theorem toBinary64_congr (hnegative : d₁.negative = d₂.negative) (hsize : d₁.size = d₂.size) :
    d₁.toBinary64 = d₂.toBinary64 := by
  rw [size_eq_div, size_eq_div, div_eq_div_iff (by positivity) (by positivity)] at hsize
  have hratio : d₁.coefficient * 10 ^ d₁.exponent.toNat * 10 ^ (-d₂.exponent).toNat =
      d₂.coefficient * 10 ^ d₂.exponent.toNat * 10 ^ (-d₁.exponent).toNat := by
    exact_mod_cast hsize
  rw [toBinary64_eq, toBinary64_eq, hnegative, ofRatio, ofRatio]
  refine congrArg _ (nearestRank_congr (by positivity) (by positivity) ?_)
  rw [Nat.shiftLeft_eq, Nat.shiftLeft_eq, mul_right_comm, hratio, mul_right_comm]

theorem negative_strip (fuel : ℕ) (d : Decimal) : (strip fuel d).negative = d.negative := by
  induction fuel generalizing d with
  | zero => rfl
  | succ fuel ih =>
      rw [strip]
      split
      case isTrue => exact ih _
      case isFalse => rfl

theorem size_strip (fuel : ℕ) (d : Decimal) : (strip fuel d).size = d.size := by
  induction fuel generalizing d with
  | zero => rfl
  | succ fuel ih =>
      rw [strip]
      split
      case isTrue h =>
        have hten : (d.coefficient : ℚ) = (d.coefficient / 10 : ℕ) * 10 := by
          exact_mod_cast (Nat.div_mul_cancel (Nat.dvd_of_mod_eq_zero h.2)).symm
        rw [ih, size, size, hten, zpow_add_one₀ (by norm_num)]
        ring
      case isFalse => rfl

theorem toBinary64_strip (fuel : ℕ) (d : Decimal) :
    (strip fuel d).toBinary64 = d.toBinary64 :=
  toBinary64_congr (negative_strip fuel d) (size_strip fuel d)

end Decimal

/-! ### Decimals of a number -/

namespace Binary64

variable {x : Binary64}

/-- The decimal that a finite number is reads back. -/
theorem toBinary64_exactly (hx : x.isFinite = true) : x.exactly.toBinary64 = x := by
  have hratio (m n : ℕ) : nearestRank ((m * Nat.pow 5 n * 10 ^ 0) <<< n) (10 ^ n) =
      nearestRank m 1 := by
    have hten : 10 ^ n = Nat.pow 5 n * 2 ^ n := Nat.mul_pow 5 2 n
    refine nearestRank_congr (by positivity) Nat.one_pos ?_
    rw [Nat.shiftLeft_eq, hten]
    ring
  have hcoefficient : x.exactly.coefficient = x.magnitude * Nat.pow 5 1074 := rfl
  have hzero : x.exactly.exponent.toNat = 0 := rfl
  have hplaces : (-x.exactly.exponent).toNat = 1074 := rfl
  rw [Decimal.toBinary64_eq, ofRatio, hcoefficient, hzero, hplaces]
  generalize 1074 = n
  rw [hratio, nearestRank_magnitude hx]
  exact ofRank_rank x

/-- A decimal that reads back stands for the number, with its sign. -/
theorem reads_of_mem_readingBack {e : ℤ} {d : Decimal} (hd : d ∈ x.readingBack e) :
    d.toBinary64 = x ∧ d.negative = x.isNegative := by
  obtain ⟨c, -, hc⟩ := List.mem_filterMap.mp hd
  by_cases hreads : Decimal.toBinary64 ⟨x.isNegative, c, e⟩ = x
  · simp only [if_pos hreads, Option.some.injEq] at hc
    exact hc ▸ ⟨hreads, rfl⟩
  · simp only [if_neg hreads, reduceCtorEq] at hc

/-- A search for the shortest decimal ends with one that reads back. -/
theorem reads_shortestFrom (hx : x.isFinite = true) (lead : ℤ) (fuel n : ℕ) :
    (x.shortestFrom lead fuel n).toBinary64 = x ∧
      (x.shortestFrom lead fuel n).negative = x.isNegative := by
  induction fuel generalizing n with
  | zero => exact ⟨toBinary64_exactly hx, rfl⟩
  | succ fuel ih =>
      rw [shortestFrom]
      cases hback : x.readingBack (lead - n + 1) with
      | nil => exact ih (n + 1)
      | cons d ds => exact reads_of_mem_readingBack (hback ▸ List.mem_cons_self)

/-- The shortest decimal of a number reads back as the number. -/
theorem toBinary64_shortest (hx : x.isFinite = true) : x.shortest.toBinary64 = x :=
  (Decimal.toBinary64_strip 800 _).trans (reads_shortestFrom hx _ 17 1).1

/-- The shortest decimal has the sign of the number. -/
theorem negative_shortest (hx : x.isFinite = true) : x.shortest.negative = x.isNegative :=
  (Decimal.negative_strip 800 _).trans (reads_shortestFrom hx _ 17 1).2

end Binary64

end ZPlane
