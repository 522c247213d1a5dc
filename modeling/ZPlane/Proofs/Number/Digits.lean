import Mathlib
import ZPlane.Number.Text
import ZPlane.Proofs.Parsing.Numeral
import ZPlane.Proofs.Number.Nearest

/-!
# Digits that read back

The digits of a number stand for it, and they begin with a zero only for zero itself.  So the plain
form of a decimal is a numeral of the same size, and the scientific form a numeral that is read as
the very decimal.
-/

namespace ZPlane

open Parsing (Numeral Exponent)

/-! ### Digits -/

section Digits

variable {n k : ℕ} {c : Char}

/-- The digits of a number stand for it. -/
theorem ofDigits_digits (n : ℕ) : ofDigits (digits n) = n := Nat.ofDigitChars_ten_toDigits

theorem isDigit_of_mem_digits (hc : c ∈ digits n) : c.isDigit = true :=
  Nat.isDigit_of_mem_toDigits (by decide) le_rfl hc

theorem digits_ne_nil (n : ℕ) : digits n ≠ [] := Nat.toDigits_ne_nil

/-- A number has at most `k` digits exactly if it is below `10 ^ k`. -/
theorem length_digits_le_iff (hk : 0 < k) : (digits n).length ≤ k ↔ n < 10 ^ k :=
  Nat.length_toDigits_le_iff (by decide) hk

/-- Digits in front count `10 ^ n` times, with `n` digits behind them. -/
theorem ofDigits_append (ds ds' : List Char) :
    ofDigits (ds ++ ds') = 10 ^ ds'.length * ofDigits ds + ofDigits ds' := by
  show Nat.ofDigitChars 10 (ds ++ ds') 0 = _
  rw [Nat.ofDigitChars_append, Nat.ofDigitChars_eq_ofDigitChars_zero]
  rfl

theorem ofDigits_lt {ds : List Char} (hd : ∀ c ∈ ds, c.isDigit = true) :
    ofDigits ds < 10 ^ ds.length := by
  induction ds with
  | nil => exact Nat.one_pos
  | cons c ds ih =>
      obtain ⟨hlower, hupper⟩ := Char.isDigit_iff_toNat.mp (hd c List.mem_cons_self)
      have hc : ofDigits [c] ≤ 9 := by
        show 10 * 0 + (c.toNat - '0'.toNat) ≤ 9
        have hnine : '9'.toNat = '0'.toNat + 9 := rfl
        omega
      have hds := ih fun d hd' ↦ hd d (List.mem_cons_of_mem c hd')
      calc ofDigits (c :: ds) = 10 ^ ds.length * ofDigits [c] + ofDigits ds :=
            ofDigits_append [c] ds
        _ < 10 ^ ds.length * 9 + 10 ^ ds.length :=
            add_lt_add_of_le_of_lt (Nat.mul_le_mul_left _ hc) hds
        _ = 10 ^ (ds.length + 1) := by ring

theorem ofDigits_padZeros (n : ℕ) (ds : List Char) : ofDigits (padZeros n ds) = ofDigits ds := by
  rw [padZeros]
  induction n - ds.length with
  | zero => rfl
  | succ n ih => exact ih

theorem length_padZeros {ds : List Char} (h : ds.length ≤ n) : (padZeros n ds).length = n := by
  rw [padZeros, List.length_append, List.length_replicate, Nat.sub_add_cancel h]

theorem isDigit_of_mem_padZeros {ds : List Char} (hd : ∀ c ∈ ds, c.isDigit = true)
    (hc : c ∈ padZeros n ds) : c.isDigit = true := by
  rcases List.mem_append.mp hc with hzero | hmem
  · rw [List.eq_of_mem_replicate hzero]
    rfl
  · exact hd c hmem

/-- Only zero has a zero in front. -/
theorem digits_eq_or (n : ℕ) : digits n = ['0'] ∨ ∀ c ∈ (digits n).head?, c ≠ '0' := by
  cases hdigits : digits n with
  | nil => exact absurd hdigits (digits_ne_nil n)
  | cons c ds =>
      rcases eq_or_ne c '0' with rfl | hc
      · left
        have hds : ∀ c ∈ ds, c.isDigit = true := fun c hc ↦
          isDigit_of_mem_digits (hdigits ▸ List.mem_cons_of_mem '0' hc)
        have hn : n < 10 ^ ds.length := by
          have hvalue := ofDigits_digits n
          rw [hdigits] at hvalue
          exact hvalue ▸ ofDigits_lt hds
        rcases Nat.eq_zero_or_pos ds.length with hnil | hpos
        · rw [List.length_eq_zero_iff.mp hnil]
        · -- The digits would be fewer than those of `n`.
          have hlength := (length_digits_le_iff hpos).mpr hn
          rw [hdigits, List.length_cons] at hlength
          omega
      · right
        rintro _ ⟨⟩
        exact hc

end Digits

/-! ### Decimals as numerals -/

namespace Parsing.Numeral

/-- Without an idle zero in front, and with digits behind the point. -/
structure IsTidy (n : Numeral) : Prop where
  whole : n.whole = ['0'] ∨ ∀ c ∈ n.whole.head?, c ≠ '0'
  fraction : ∀ ds ∈ n.fraction, ds ≠ []

/-- The number `c / 10 ^ k` with `k` places. -/
def pointed (c k : ℕ) : Numeral where
  whole := digits (c / 10 ^ k)
  fraction := some (padZeros k (digits (c % 10 ^ k)))
  exponent := none
  whole_isDigit _ := isDigit_of_mem_digits
  whole_ne_nil := digits_ne_nil _
  fraction_isDigit := by
    rintro _ ⟨⟩ c
    exact isDigit_of_mem_padZeros fun _ ↦ isDigit_of_mem_digits

section Pointed

variable {k : ℕ} (hk : 0 < k)
include hk

theorem length_places (c : ℕ) : (padZeros k (digits (c % 10 ^ k))).length = k :=
  length_padZeros ((length_digits_le_iff hk).mpr (Nat.mod_lt _ (by positivity)))

theorem isTidy_pointed (c : ℕ) : (pointed c k).IsTidy := by
  refine ⟨digits_eq_or _, ?_⟩
  rintro _ ⟨⟩ hnil
  have hlength := length_places hk c
  rw [hnil, List.length_nil] at hlength
  exact hk.ne hlength

/-- The numeral is spelled as the number is written with its places. -/
theorem text_pointed (c : ℕ) : (pointed c k).text = Decimal.pointed c k := by
  show digits (c / 10 ^ k) ++ ('.' :: padZeros k (digits (c % 10 ^ k)) ++ []) = _
  rw [List.append_nil, Decimal.pointed]
  exact (if_neg hk.ne').symm

/-- The numeral stands for the number it is made of. -/
theorem decimal_pointed (c : ℕ) : (pointed c k).decimal = ⟨false, c, -k⟩ := by
  show Decimal.ofParts false (digits (c / 10 ^ k)) (padZeros k (digits (c % 10 ^ k))) 0 = _
  rw [Decimal.ofParts, ofDigits_append, length_places hk, ofDigits_padZeros, ofDigits_digits,
    ofDigits_digits, Nat.div_add_mod, zero_sub]

end Pointed

/-- The digits behind the first one, if there are any. -/
def laterDigits? (c : ℕ) : Option (List Char) :=
  if (digits c).tail = [] then none else some (digits c).tail

/-- There are later digits only where there are more than one. -/
theorem eq_of_mem_laterDigits? {c : ℕ} {ds : List Char} (h : ds ∈ laterDigits? c) :
    ds = (digits c).tail ∧ ds ≠ [] := by
  rw [laterDigits?] at h
  split at h
  case isTrue => cases h
  case isFalse hne =>
    cases h
    exact ⟨rfl, hne⟩

theorem getD_laterDigits? (c : ℕ) : (laterDigits? c).getD [] = (digits c).tail := by
  rw [laterDigits?]
  split
  case isTrue hnil => exact hnil.symm
  case isFalse => rfl

/-- The number with the digits of `c`, one of them before the point. -/
def scientific (c : ℕ) (e : Exponent) : Numeral where
  whole := (digits c).take 1
  fraction := laterDigits? c
  exponent := some e
  whole_isDigit _ hc := isDigit_of_mem_digits (List.mem_of_mem_take hc)
  whole_ne_nil h := digits_ne_nil c ((List.take_eq_nil_iff.mp h).resolve_left one_ne_zero)
  fraction_isDigit ds hds d hd := by
    rw [(eq_of_mem_laterDigits? hds).1] at hd
    exact isDigit_of_mem_digits (List.mem_of_mem_tail hd)

theorem isTidy_scientific (c : ℕ) (e : Exponent) : (scientific c e).IsTidy := by
  refine ⟨?_, fun ds hds ↦ (eq_of_mem_laterDigits? hds).2⟩
  show (digits c).take 1 = ['0'] ∨ ∀ d ∈ ((digits c).take 1).head?, d ≠ '0'
  rcases digits_eq_or c with hzero | hhead
  · left
    rw [hzero]
    rfl
  · right
    rwa [List.head?_take, if_neg one_ne_zero]

/-- The numeral is spelled as the mantissa and the exponent are written. -/
theorem text_scientific (d : Decimal) (e : Exponent) :
    (scientific d.coefficient e).text = d.mantissa ++ e.text := by
  show (digits d.coefficient).take 1 ++ ((laterDigits? d.coefficient).elim [] ('.' :: ·) ++ e.text)
    = _
  rw [laterDigits?, Decimal.mantissa]
  match digits d.coefficient, digits_ne_nil d.coefficient with
  | [c], _ => rfl
  | c :: c' :: cs, _ => rfl

/-- The numeral stands for the digits, moved to where the exponent puts the point. -/
theorem decimal_scientific (c : ℕ) (e : Exponent) :
    (scientific c e).decimal = ⟨false, c, e.value - (digits c).length + 1⟩ := by
  have hlength : 0 < (digits c).length := List.length_pos_iff.mpr (digits_ne_nil c)
  show Decimal.ofParts false ((digits c).take 1) ((laterDigits? c).getD []) e.value = _
  rw [getD_laterDigits?, Decimal.ofParts, ← List.drop_one, List.take_append_drop,
    ofDigits_digits, List.length_drop, Nat.cast_sub hlength, Nat.cast_one, ← sub_add]

end Parsing.Numeral

namespace Decimal

/-- A whole decimal is written with one place. -/
theorem plain_of_nonneg {d : Decimal} (he : 0 ≤ d.exponent) :
    d.plain = pointed (10 * (d.coefficient * 10 ^ d.exponent.toNat)) 1 := by
  have hten : tenTo 1 = 10 := rfl
  rw [plain, if_pos he, pointed, hten, Nat.mul_div_cancel_left _ (by decide), Nat.mul_mod_right]
  rfl

/-- The plain form of a decimal is a numeral with places, of the size of the decimal. -/
theorem exists_numeral_plain (d : Decimal) : ∃ n : Numeral, n.IsTidy ∧ n.text = d.plain ∧
    n.fraction ≠ none ∧ n.decimal.size = d.size := by
  by_cases he : 0 ≤ d.exponent
  · refine ⟨.pointed (10 * (d.coefficient * 10 ^ d.exponent.toNat)) 1,
      Numeral.isTidy_pointed one_pos _, ?_, Option.some_ne_none _, ?_⟩
    · rw [Numeral.text_pointed one_pos, plain_of_nonneg he]
    · have hexponent : (10 : ℚ) ^ d.exponent = 10 ^ d.exponent.toNat := by
        rw [← zpow_natCast, Int.toNat_of_nonneg he]
      rw [Numeral.decimal_pointed one_pos, size, size, hexponent]
      push_cast
      ring
  · have hk : 0 < (-d.exponent).toNat := by omega
    refine ⟨.pointed d.coefficient (-d.exponent).toNat, Numeral.isTidy_pointed hk _, ?_,
      Option.some_ne_none _, ?_⟩
    · rw [Numeral.text_pointed hk, plain, if_neg he]
    · have hexponent : -((-d.exponent).toNat : ℤ) = d.exponent := by omega
      rw [Numeral.decimal_pointed hk, size, size, hexponent]

end Decimal

end ZPlane
