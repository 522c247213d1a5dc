import Mathlib
import ZPlane.Parsing.Lexeme
import ZPlane.Proofs.Number.Closeness
import ZPlane.Proofs.Number.Digits
import ZPlane.Proofs.Parsing.Boundary

/-!
# Numbers printed with a count of places

A finite number is printed as a sign and a numeral without exponent (`toList_fixed`), which is read
as the decimal that it was rounded to.  The decimal is that of a finite number again
(`isFinite_value_printed`): from `2 ^ 52` on the number is an integer and the decimal is exact, and
below that rounding to places leads nowhere near the greatest number.
-/

namespace ZPlane

open Parsing (Numeral readNumber? readNumber?_text)

/-! ### Numerals without exponent -/

namespace Parsing.Numeral

/-- The number `c / 10 ^ p` with `p` places, and without a point if there are none. -/
def fixedPoint (c p : ℕ) : Numeral where
  whole := digits (c / 10 ^ p)
  fraction := if p = 0 then none else some (padZeros p (digits (c % 10 ^ p)))
  exponent := none
  whole_isDigit := (pointed c p).whole_isDigit
  whole_ne_nil := (pointed c p).whole_ne_nil
  fraction_isDigit := by
    intro ds hds c hc
    split at hds
    · cases hds
    · obtain rfl := Option.some.inj hds
      exact isDigit_of_mem_padZeros (fun _ ↦ isDigit_of_mem_digits) hc

theorem fixedPoint_of_pos {p : ℕ} (hp : 0 < p) (c : ℕ) : fixedPoint c p = pointed c p := by
  simp only [fixedPoint, if_neg hp.ne', pointed]

theorem text_fixedPoint (c p : ℕ) : (fixedPoint c p).text = Decimal.pointed c p := by
  rcases Nat.eq_zero_or_pos p with rfl | hp
  · exact List.append_nil _
  · rw [fixedPoint_of_pos hp, text_pointed hp]

theorem decimal_fixedPoint (c p : ℕ) : (fixedPoint c p).decimal = ⟨false, c, -p⟩ := by
  rcases Nat.eq_zero_or_pos p with rfl | hp
  · show Decimal.ofParts false (digits (c / 10 ^ 0)) [] 0 = _
    rw [Decimal.ofParts, List.append_nil, ofDigits_digits, pow_zero, Nat.div_one]
    rfl
  · rw [fixedPoint_of_pos hp, decimal_pointed hp]

end Parsing.Numeral

/-! ### Bounds of rounding -/

theorem nearest_le (a b : ℕ) : nearest a b ≤ a / b + 1 := by
  simp only [nearest]
  split
  · exact Nat.le_succ _
  · split
    · exact le_rfl
    · exact Nat.add_le_add_left (Nat.le_of_lt_succ (Nat.mod_lt _ two_pos)) _

/-- The nearest integer is at most one more than the ratio. -/
theorem nearest_mul_le (a b : ℕ) : nearest a b * b ≤ a + b :=
  calc nearest a b * b ≤ (a / b + 1) * b := Nat.mul_le_mul_right b (nearest_le a b)
    _ = a / b * b + b := by rw [add_mul, one_mul]
    _ ≤ a + b := Nat.add_le_add_right (Nat.div_mul_le_self a b) b

namespace Binary64

variable {x : Binary64} {p : ℕ}

/-- Ratios below `2 ^ 2097` are not rounded to infinity. -/
theorem nearestRank_lt {a b k : ℕ} (hk : k ≤ 2097) (h : a < 2 ^ k * b) :
    nearestRank a b < infinityRank := by
  have hdiv : a / b < 2 ^ (scaleOf a b + 53) := by
    have hlog : (a / b).log2 + 1 ≤ scaleOf a b + 53 := by
      rw [scaleOf]
      omega
    exact Nat.lt_log2_self.trans_le (Nat.pow_le_pow_right two_pos hlog)
  have hsignificand : nearest a (b <<< scaleOf a b) ≤ 2 ^ 53 := by
    refine (nearest_le _ _).trans ?_
    rw [Nat.shiftLeft_eq, ← Nat.div_div_eq_div_mul]
    refine Nat.div_lt_of_lt_mul ?_
    rwa [← pow_add]
  have hscale : scaleOf a b ≤ 2044 := by
    have hlog : (a / b).log2 ≤ 2096 := by
      rcases Nat.eq_zero_or_pos (a / b) with hzero | hpos
      · rw [hzero]
        decide
      · have hlt : a / b < 2 ^ k := Nat.div_lt_of_lt_mul (mul_comm (2 ^ k) b ▸ h)
        have := (Nat.log2_lt hpos.ne').mpr hlt
        omega
    rw [scaleOf]
    omega
  calc nearestRank a b ≤ scaleOf a b * ranksPerScale + nearest a (b <<< scaleOf a b) :=
        Nat.min_le_right _ _
    _ ≤ 2044 * ranksPerScale + 2 ^ 53 :=
        Nat.add_le_add (Nat.mul_le_mul_right _ hscale) hsignificand
    _ < infinityRank := by decide

theorem rank_ofRank (negative : Bool) {r : ℕ} (hr : r < 2 ^ 63) :
    (ofRank negative r).rank = r := by
  rw [rank_eq_mod, bits_toNat_ofRank negative hr]
  cases negative with
  | false => simpa using hr
  | true => simpa using hr

/-- A significand has at most 53 bits. -/
theorem significand_lt (x : Binary64) : x.significand < 2 ^ 53 := by
  rw [significand]
  split
  case isTrue h => exact h.trans (by decide)
  case isFalse =>
    exact Nat.add_lt_add_left (Nat.mod_lt _ (by decide)) _

/-! ### Printed numbers -/

/-- The numeral that a finite number is printed as, apart from its sign. -/
def printed (p : ℕ) (x : Binary64) : Numeral :=
  .fixedPoint (x.toMultiple (-(p : ℤ))).coefficient p

/-- A finite number is printed as its sign and its numeral. -/
theorem toList_fixed (hx : x.isFinite = true) (p : ℕ) :
    (x.fixed p).toList = x.signText ++ (x.printed p).text := by
  rw [fixed, isNaN_of_isFinite hx, if_neg Bool.false_ne_true, if_pos hx, String.toList_ofList,
    printed, Numeral.text_fixedPoint]

/-- What is printed is the nearest multiple of the last place. -/
theorem coefficient_toMultiple (x : Binary64) (p : ℕ) :
    (x.toMultiple (-(p : ℤ))).coefficient = nearest (x.magnitude * 10 ^ p) (1 <<< 1074) := by
  rw [toMultiple, inUnits]
  rcases Nat.eq_zero_or_pos p with rfl | hp
  · rw [if_pos (by omega), pow_zero, Nat.mul_one]
    rfl
  · have hplaces : (- -(p : ℤ)).toNat = p := by omega
    rw [if_neg (by omega), hplaces]
    rfl

/-- What is printed has the value of the number nearest to it. -/
theorem value_printed (x : Binary64) (p : ℕ) : (x.printed p).value = ofRank false
    (nearestRank (nearest (x.magnitude * 10 ^ p) (1 <<< 1074) <<< 1074) (10 ^ p)) := by
  have hzero : (-(p : ℤ)).toNat = 0 := by omega
  have hplaces : (- -(p : ℤ)).toNat = p := by omega
  rw [Numeral.value, printed, Numeral.decimal_fixedPoint, Decimal.toBinary64_eq, ofRatio, hzero,
    hplaces, pow_zero, Nat.mul_one, coefficient_toMultiple]

/-- Rounding a finite number to a multiple of `1 / t` keeps it finite. -/
theorem nearestRank_multiple_lt (hx : x.isFinite = true) {k t : ℕ} (hk : k ≤ 2044) (ht : 0 < t) :
    nearestRank (nearest (x.magnitude * t) (1 <<< k) <<< k) t < infinityRank := by
  rw [Nat.shiftLeft_eq, Nat.shiftLeft_eq, Nat.one_mul]
  rcases le_or_gt k x.scale with hscale | hscale
  · -- The number is an integer, so it is such a multiple.
    obtain ⟨m, hm⟩ : ∃ m, x.magnitude = m * 2 ^ k :=
      ⟨x.significand * 2 ^ (x.scale - k), by
        rw [magnitude, Nat.shiftLeft_eq, mul_assoc, ← pow_add, Nat.sub_add_cancel hscale]⟩
    have hself : nearestRank (nearest (x.magnitude * t) (2 ^ k) * 2 ^ k) t =
        nearestRank x.magnitude 1 := by
      refine nearestRank_congr ht Nat.one_pos ?_
      rw [hm, mul_right_comm m, nearest_mul_self (Nat.two_pow_pos k)]
      ring
    rw [hself, nearestRank_magnitude hx]
    rwa [isFinite_eq_decide_rank, decide_eq_true_iff] at hx
  · have hmagnitude : x.magnitude < 2 ^ (k + 52) := by
      rw [magnitude, Nat.shiftLeft_eq]
      calc x.significand * 2 ^ x.scale < 2 ^ 53 * 2 ^ x.scale :=
            Nat.mul_lt_mul_of_pos_right x.significand_lt (Nat.two_pow_pos _)
        _ = 2 ^ (53 + x.scale) := (pow_add 2 _ _).symm
        _ ≤ 2 ^ (k + 52) := Nat.pow_le_pow_right two_pos (by omega)
    refine nearestRank_lt (show k + 53 ≤ 2097 by omega) ?_
    calc nearest (x.magnitude * t) (2 ^ k) * 2 ^ k ≤ x.magnitude * t + 2 ^ k := nearest_mul_le _ _
      _ < 2 ^ (k + 52) * t + 2 ^ (k + 52) * t := by
          refine Nat.add_lt_add_of_lt_of_le (Nat.mul_lt_mul_of_pos_right hmagnitude ht) ?_
          exact (Nat.pow_le_pow_right two_pos (by omega)).trans (Nat.le_mul_of_pos_right _ ht)
      _ = 2 ^ (k + 53) * t := by ring

theorem isFinite_value_printed (hx : x.isFinite = true) (p : ℕ) :
    (x.printed p).value.isFinite = true := by
  have hten : 0 < 10 ^ p := Nat.pow_pos (by decide)
  have hrank := nearestRank_multiple_lt hx (show 1074 ≤ 2044 by decide) hten
  rw [isFinite_eq_decide_rank, decide_eq_true_iff, value_printed,
    rank_ofRank false (hrank.trans (by decide))]
  exact hrank

/-- The sign is not part of the numeral. -/
theorem printed_abs (p : ℕ) (x : Binary64) : x.abs.printed p = x.printed p := by
  have hmagnitude : x.abs.magnitude = x.magnitude := by
    rw [magnitude, significand, scale, rank_abs, ← scale, ← significand, ← magnitude]
  rw [printed, printed, coefficient_toMultiple, coefficient_toMultiple, hmagnitude]

theorem isNegative_abs (x : Binary64) : x.abs.isNegative = false := by
  have hrank : x.abs.bits.toNat = x.rank := rfl
  rw [← Bool.not_eq_true, isNegative_iff, hrank, rank_eq_mod, Nat.not_le]
  exact Nat.mod_lt _ (by decide)

/-! ### Reading printed numbers -/

/-- The number that a text says: a numeral, behind a minus sign or without one. -/
def ofText? (s : String) : Option Binary64 :=
  match s.toList with
  | '-' :: cs => (readNumber? cs).map fun d ↦ -d.toBinary64
  | cs => (readNumber? cs).map Decimal.toBinary64

/-- The number that a finite number is printed as. -/
def rounded (p : ℕ) (x : Binary64) : Binary64 :=
  if x.isNegative then -(x.printed p).value else (x.printed p).value

/-- What a finite number is printed as is read back as the rounded number. -/
theorem ofText?_fixed (hx : x.isFinite = true) (p : ℕ) :
    ofText? (x.fixed p) = some (x.rounded p) := by
  have hread := readNumber?_text (x.printed p)
  rw [ofText?, toList_fixed hx, signText, rounded]
  cases x.isNegative with
  | true =>
      show (readNumber? (x.printed p).text).map (fun d ↦ -d.toBinary64) = _
      rw [hread]
      rfl
  | false =>
      obtain ⟨c, t, hc, hdigit⟩ := (x.printed p).exists_first
      have hsign : c ≠ '-' := by
        rintro rfl
        cases hdigit
      simp only [Bool.false_eq_true, if_false, List.nil_append]
      split
      next hcs =>
        rw [hc] at hcs
        exact absurd (List.cons.inj hcs).1 hsign
      next =>
        rw [hread]
        rfl

theorem isFinite_rounded (hx : x.isFinite = true) (p : ℕ) : (x.rounded p).isFinite = true := by
  have hvalue := isFinite_value_printed hx p
  rw [rounded]
  split
  case isTrue => exact (isFinite_neg _).trans hvalue
  case isFalse => exact hvalue

end Binary64

end ZPlane
