import Mathlib
import ZPlane.Number.Scalar

/-!
# Closeness to zero

A binary64 number is close to zero if its absolute value is below the tolerance.  The test subtracts
zero first, which changes no number (`sub_zero`), read off the model of the machine's subtraction.
A NaN is close to nothing, before the subtraction and after it, and a number is as close as its
negation.
-/

namespace ZPlane

namespace Binary64

open Float.Model Float.Model.UnpackedFloat

variable {x ε : Binary64}

/-! ### Fields of the bits -/

/-- The rank of a number is what its bits are without the sign. -/
theorem rank_eq_mod (x : Binary64) : x.rank = x.bits.toNat % 2 ^ 63 := by
  rw [rank, UInt64.toNat_and]
  exact Nat.and_two_pow_sub_one_eq_mod _ 63

theorem rank_neg (x : Binary64) : (-x).rank = x.rank := by
  show ((x.bits ^^^ 0x8000000000000000) &&& 0x7FFFFFFFFFFFFFFF).toNat = _
  rw [rank, UInt64.toNat_and, UInt64.toNat_xor, Nat.and_xor_distrib_right, UInt64.toNat_and]
  exact Nat.xor_zero _

theorem rank_abs (x : Binary64) : x.abs.rank = x.rank := by
  show ((x.bits &&& 0x7FFFFFFFFFFFFFFF) &&& 0x7FFFFFFFFFFFFFFF).toNat = _
  rw [UInt64.and_assoc, UInt64.and_self, rank]

theorem abs_neg (x : Binary64) : (-x).abs = x.abs :=
  congrArg mk (UInt64.toNat_inj.mp (rank_neg x))

theorem isNaN_abs (x : Binary64) : x.abs.isNaN = x.isNaN := by
  rw [isNaN_eq_decide_rank, rank_abs, ← isNaN_eq_decide_rank]

theorem isNaN_neg (x : Binary64) : (-x).isNaN = x.isNaN := by
  rw [isNaN_eq_decide_rank, rank_neg, ← isNaN_eq_decide_rank]

theorem isFinite_abs (x : Binary64) : x.abs.isFinite = x.isFinite := by
  rw [isFinite_eq_decide_rank, rank_abs, ← isFinite_eq_decide_rank]

theorem isFinite_neg (x : Binary64) : (-x).isFinite = x.isFinite := by
  rw [isFinite_eq_decide_rank, rank_neg, ← isFinite_eq_decide_rank]

theorem isNaN_of_isFinite (hx : x.isFinite = true) : x.isNaN = false := by
  rw [isFinite_eq_decide_rank, decide_eq_true_iff] at hx
  rw [isNaN_eq_decide_rank, decide_eq_false_iff_not]
  exact hx.not_gt

theorem isNaN_quiet (hx : x.isNaN = true) : x.quiet.isNaN = true := by
  rw [isNaN_eq_decide_rank, decide_eq_true_iff] at hx ⊢
  refine hx.trans_le ?_
  show _ ≤ ((x.bits ||| 0x0008000000000000) &&& 0x7FFFFFFFFFFFFFFF).toNat
  rw [rank, UInt64.toNat_and, UInt64.toNat_and, UInt64.toNat_or, Nat.and_or_distrib_right]
  exact Nat.left_le_or

/-! ### Numbers of the machine -/

/-- The machine tells the same NaNs apart from numbers. -/
theorem isNaNBits_bits (x : Binary64) :
    @isNaNBits .binary64 x.bits.toBitVec = x.isNaN := by
  have hexponent : @unpackExponent .binary64 x.bits.toBitVec = -1#11 ↔
      x.bits.toNat / 2 ^ 52 % 2 ^ 11 = 2 ^ 11 - 1 := by
    rw [unpackExponent_def, ← BitVec.toNat_inj, BitVec.extractLsb'_toNat]
    exact Nat.shiftRight_eq_div_pow _ _ ▸ Iff.rfl
  have hmantissa : @unpackMantissa .binary64 x.bits.toBitVec = 0#52 ↔
      x.bits.toNat % 2 ^ 52 = 0 := by
    rw [unpackMantissa_def, ← BitVec.toNat_inj, BitVec.extractLsb'_toNat]
    rfl
  rw [isNaN_eq_decide_rank, isNaNBits, decide_eq_decide, rank_eq_mod, infinityRank]
  refine (and_congr hexponent hmantissa.not).trans ?_
  have := x.bits.toNat_lt
  omega

/-- The machine keeps the bits of a number that is no NaN. -/
theorem toBits_toFloat (hx : x.isNaN = false) : x.toFloat.toBits = x.bits := by
  show UInt64.ofBitVec (pack .binary64 (unpack .binary64 x.bits.toBitVec)) = x.bits
  rw [pack_unpack, isNaNBits_bits, hx]
  rfl

theorem isNaN_toFloat (hx : x.isNaN = false) : x.toFloat.isNaN = false := by
  have hvalid : Format.binary64.Valid x.toFloat.toBits.toBitVec := x.toFloat.toModel.valid
  rw [toBits_toFloat hx] at hvalid
  show (unpack .binary64 x.toFloat.toBits.toBitVec).isNaN = false
  rw [toBits_toFloat hx, ← Bool.not_eq_true, isNaN_unpack_iff_of_valid hvalid]
  intro hbits
  have hnan := isNaNBits_bits x
  rw [hbits, isNaNBits_packedNaN, hx] at hnan
  cases hnan

/-- A number that is no NaN comes back from the machine as it was. -/
theorem ofFloat_toFloat (hx : x.isNaN = false) : ofFloat x.toFloat = x := by
  rw [ofFloat, isNaN_toFloat hx]
  exact congrArg mk (toBits_toFloat hx)

/-! ### Subtraction of zero -/

/-- Taking zero away changes no unpacked number. -/
theorem unpacked_sub_zero (spec : Format) (a : UnpackedFloat) :
    UnpackedFloat.sub spec a (.zero .positive) = a := by
  cases a with
  | infinity | notANumber | finite => rfl
  | zero s => cases s <;> rfl

theorem float_sub_zero (f : Float) : f - (0 : Binary64).toFloat = f := by
  obtain ⟨⟨bits, hvalid⟩⟩ := f
  have hzero : (0 : Binary64).toFloat.toModel.unpack = .zero .positive := rfl
  show Float.ofModel (Float.Model.pack (UnpackedFloat.sub .binary64 _ _)) = _
  rw [hzero, unpacked_sub_zero]
  refine congrArg Float.ofModel ?_
  refine Float.Model.mk.congr_simp _ _ (congrArg UInt64.ofBitVec ?_) _
  exact pack_unpack_of_valid hvalid

/-- Taking zero away changes nothing but NaNs. -/
theorem sub_zero (hx : x.isNaN = false) : x - 0 = x := by
  have hzero : (0 : Binary64).isNaN = false := by decide
  show lift₂ (· - ·) x 0 = x
  rw [lift₂, hx, hzero]
  simp only [Bool.false_eq_true, if_false, float_sub_zero]
  exact ofFloat_toFloat hx

/-- Taking zero away makes a NaN quiet. -/
theorem sub_zero_of_isNaN (hx : x.isNaN = true) : x - 0 = x.quiet := if_pos hx

/-- A NaN is below no bound. -/
theorem not_abs_lt_of_isNaN (hx : x.isNaN = true) : ¬ x.abs < ε := by
  rintro ⟨h, -⟩
  rw [isNaN_abs, hx] at h
  cases h

/-- A number is close to zero exactly if its absolute value is below the tolerance. -/
theorem closeTo_zero_iff : closeTo x 0 ε = true ↔ x.abs < ε := by
  rw [closeTo, decide_eq_true_iff]
  show (x - 0).abs < ε ↔ x.abs < ε
  cases hx : x.isNaN with
  | false => rw [sub_zero hx]
  | true =>
      rw [sub_zero_of_isNaN hx]
      exact iff_of_false (not_abs_lt_of_isNaN (isNaN_quiet hx)) (not_abs_lt_of_isNaN hx)

end Binary64

end ZPlane
