import Mathlib
import ZPlane.Proofs.Number.Zeros

/-!
# Differences taken the other way round

Rounding looks at the sign of a number only to keep it, and packing writes it apart from the rest.
So a difference of finite numbers that is taken the other way round is the negation, up to the sign
of zero (`Binary64.sub_swap_alike`), and it stands at the opposite place of the order.
-/

namespace ZPlane

open Float.Model Float.Model.UnpackedFloat

namespace Unpacked

variable {spec : Format} {a b : UnpackedFloat}

/-! ### Packing -/

/-- The sign is one bit of a packed number. -/
theorem packComponents_neg (s : Sign) (exponent : BitVec 11) (mantissa : BitVec 52) :
    packComponents .binary64 (-s) exponent mantissa =
      packComponents .binary64 s exponent mantissa ^^^ 0x8000000000000000#64 := by
  have hbit : 0x8000000000000000#64 = 1#1 ++ 0#11 ++ 0#52 := by decide
  have hsign : (-s).toBitVec = s.toBitVec ^^^ 1#1 := by cases s <;> rfl
  show (-s).toBitVec ++ exponent ++ mantissa = (s.toBitVec ++ exponent ++ mantissa) ^^^ _
  rw [hbit, BitVec.xor_append, BitVec.xor_append, hsign, BitVec.xor_zero, BitVec.xor_zero]

/-- The negative is packed with its sign bit flipped. -/
theorem pack_neg (ha : a ≠ .notANumber) :
    UnpackedFloat.pack .binary64 a.neg =
      UnpackedFloat.pack .binary64 a ^^^ 0x8000000000000000#64 := by
  cases a with
  | notANumber => exact absurd rfl ha
  | infinity s => exact packComponents_neg s _ _
  | zero s => exact packComponents_neg s _ _
  | finite s m e hm =>
      unfold UnpackedFloat.neg UnpackedFloat.pack
      dsimp only
      split
      · exact packComponents_neg s _ _
      · split
        · exact packComponents_neg s _ _
        · exact packComponents_neg s _ _

/-- A finite number is packed with the greatest exponent only if it overflows. -/
theorem isNaNBits_pack (ha : a ≠ .notANumber) :
    isNaNBits (UnpackedFloat.pack .binary64 a) = false := by
  have hcomponents (s : Sign) (exponent : BitVec 11) (mantissa : BitVec 52)
      (h : exponent = -1#11 → mantissa = 0#52) :
      @isNaNBits .binary64 (packComponents .binary64 s exponent mantissa) = false := by
    rw [isNaNBits, unpackExponent_packComponents, unpackMantissa_packComponents,
      decide_eq_false_iff_not]
    exact fun hnan ↦ hnan.2 (h hnan.1)
  cases a with
  | notANumber => exact absurd rfl ha
  | infinity s => exact hcomponents s _ _ fun _ ↦ rfl
  | zero s => exact hcomponents s _ _ fun h ↦ absurd h (by decide)
  | finite s m e hm =>
      unfold UnpackedFloat.pack
      extract_lets bits biased
      split
      case isTrue => exact hcomponents s _ _ fun _ ↦ rfl
      case isFalse hbiased =>
        split
        case isTrue =>
          refine hcomponents s _ _ fun h ↦ ?_
          have hbiased : ¬ 2 ^ 11 ≤ biased + 1 := hbiased
          have hexponent := congrArg BitVec.toNat h
          have hgreatest : (-1#11).toNat = 2 ^ 11 - 1 := by decide
          rw [hgreatest] at hexponent
          have hmod : (BitVec.ofNat 11 biased).toNat = biased % 2 ^ 11 := BitVec.toNat_ofNat ..
          have hexponent : (BitVec.ofNat 11 biased).toNat = 2 ^ 11 - 1 := hexponent
          omega
        case isFalse => exact hcomponents s _ _ fun h ↦ absurd h (by decide)

/-! ### Differences -/

/-- A zero or a number with a significand. -/
inductive IsFinite : UnpackedFloat → Prop
  | zero (s : Sign) : IsFinite (.zero s)
  | finite (s : Sign) (m : ℕ) (e : ℤ) (hm : 0 < m) : IsFinite (.finite s m e hm)

theorem IsFinite.ne_notANumber (h : IsFinite a) : a ≠ .notANumber := by
  cases h with
  | zero => exact UnpackedFloat.noConfusion
  | finite => exact UnpackedFloat.noConfusion

theorem isFinite_round (spec : Format) (s : Sign) (m : ℕ) (e : ℤ) :
    IsFinite (UnpackedFloat.round spec s m e) := by
  simp only [UnpackedFloat.round, roundWithAccuracy]
  split
  · exact .zero s
  · exact .finite s _ _ _

theorem isFinite_normalize (spec : Format) (m e : ℤ) (s : Sign) :
    IsFinite (UnpackedFloat.normalize spec m e s) := by
  rw [UnpackedFloat.normalize]
  split
  · exact isFinite_round ..
  · exact .zero s
  · exact isFinite_round ..

/-- The difference of finite numbers is finite before it is packed. -/
theorem IsFinite.sub (ha : IsFinite a) (hb : IsFinite b) :
    IsFinite (UnpackedFloat.sub spec a b) := by
  cases ha with
  | zero s =>
      cases hb with
      | zero t => cases s <;> cases t <;> exact .zero _
      | finite t n f hn => exact .finite (-t) n f hn
  | finite s m e hm =>
      cases hb with
      | zero t => exact .finite s m e hm
      | finite t n f hn => exact isFinite_normalize ..

/-- Rounding does not look at the sign. -/
theorem round_neg (spec : Format) (s : Sign) (m : ℕ) (e : ℤ) :
    UnpackedFloat.round spec (-s) m e = (UnpackedFloat.round spec s m e).neg := by
  simp only [UnpackedFloat.round, roundWithAccuracy]
  split
  · rfl
  · rfl

/-- Normalizing the negative gives the negative, zeros apart. -/
theorem normalize_neg (spec : Format) (m e : ℤ) (s t : Sign) :
    Alike (UnpackedFloat.normalize spec (-m) e s) (UnpackedFloat.normalize spec m e t).neg := by
  rcases lt_trichotomy m 0 with hm | rfl | hm
  · have hneg : 0 < -m := by omega
    rw [UnpackedFloat.normalize, UnpackedFloat.normalize, compare_gt_iff_gt.mpr hneg,
      compare_lt_iff_lt.mpr hm]
    exact round_neg spec .negative (-m).toNat e ▸ .refl _
  · exact .zero _ _
  · have hneg : -m < 0 := by omega
    rw [UnpackedFloat.normalize, UnpackedFloat.normalize, compare_lt_iff_lt.mpr hneg,
      compare_gt_iff_gt.mpr hm, neg_neg]
    exact round_neg spec .positive m.toNat e ▸ .refl _

/-- Of infinities of one sign no difference would be a number. -/
theorem IsFinite.sub_swap (ha : IsFinite a) (hb : IsFinite b) :
    Alike (UnpackedFloat.sub spec b a) (UnpackedFloat.sub spec a b).neg := by
  cases ha with
  | zero s =>
      cases hb with
      | zero t => cases s <;> cases t <;> exact .zero _ _
      | finite t n f hn => cases t <;> exact .refl _
  | finite s m e hm =>
      cases hb with
      | zero t => exact .refl _
      | finite t n f hn =>
          simp only [UnpackedFloat.sub]
          rw [min_comm f e, ← neg_sub]
          exact normalize_neg ..

end Unpacked

/-! ### Binary64 numbers -/

namespace Binary64

variable {x y : Binary64} {a : UnpackedFloat}

theorem isFinite_unpacked (hx : x.isFinite = true) : Unpacked.IsFinite x.unpacked := by
  rcases unpacked_of_isFinite hx with ⟨s, hs⟩ | ⟨s, m, e, hm, hs⟩
  · exact hs ▸ .zero s
  · exact hs ▸ .finite s m e hm

/-- What is not a NaN is packed as it is. -/
theorem ofUnpacked_eq (ha : a ≠ .notANumber) :
    ofUnpacked a = ⟨.ofBitVec (UnpackedFloat.pack .binary64 a)⟩ := by
  have hvalid : Format.binary64.Valid (UnpackedFloat.pack .binary64 a) := valid_pack
  have hnan : (Float.ofModel (.pack a)).isNaN = false := by
    show (unpack .binary64 (UnpackedFloat.pack .binary64 a)).isNaN = false
    rw [← Bool.not_eq_true, isNaN_unpack_iff_of_valid hvalid]
    intro h
    have hbits := Unpacked.isNaNBits_pack ha
    rw [h, isNaNBits_packedNaN] at hbits
    cases hbits
  rw [ofUnpacked, ofFloat, hnan]
  rfl

/-- Only a NaN is packed as one. -/
theorem isNaN_ofUnpacked (ha : a ≠ .notANumber) : (ofUnpacked a).isNaN = false := by
  rw [← isNaNBits_bits, ofUnpacked_eq ha]
  exact Unpacked.isNaNBits_pack ha

/-- Negation can be done before packing or behind it. -/
theorem ofUnpacked_neg (ha : a ≠ .notANumber) : ofUnpacked a.neg = -ofUnpacked a := by
  have hneg : a.neg ≠ .notANumber := by
    cases a with
    | notANumber => exact absurd rfl ha
    | infinity | zero | finite => exact UnpackedFloat.noConfusion
  rw [ofUnpacked_eq ha, ofUnpacked_eq hneg, Unpacked.pack_neg ha]
  rfl

/-- The difference of finite numbers is no NaN. -/
theorem isNaN_sub (hx : x.isFinite = true) (hy : y.isFinite = true) : (x - y).isNaN = false := by
  rw [sub_eq (isNaN_of_isFinite hx) (isNaN_of_isFinite hy)]
  exact isNaN_ofUnpacked ((isFinite_unpacked hx).sub (isFinite_unpacked hy)).ne_notANumber

/-- The difference the other way round is the negative one, zeros apart. -/
theorem sub_swap_alike (hx : x.isFinite = true) (hy : y.isFinite = true) :
    (y - x).Alike (-(x - y)) := by
  have hx' := isFinite_unpacked hx
  have hy' := isFinite_unpacked hy
  have hx := isNaN_of_isFinite hx
  have hy := isNaN_of_isFinite hy
  rw [sub_eq hx hy, sub_eq hy hx, ← ofUnpacked_neg (hx'.sub hy').ne_notANumber]
  exact .ofUnpacked (hx'.sub_swap hy')

theorem isNegative_eq_msb (x : Binary64) : x.isNegative = x.bits.toBitVec.msb := by
  rw [Bool.eq_iff_iff, isNegative_iff, BitVec.msb_eq_decide, decide_eq_true_iff]
  rfl

theorem isNegative_neg (x : Binary64) : (-x).isNegative = !x.isNegative := by
  have hbits : (-x).bits.toBitVec = x.bits.toBitVec ^^^ 0x8000000000000000#64 := rfl
  rw [isNegative_eq_msb, isNegative_eq_msb, hbits, BitVec.msb_xor]
  exact Bool.xor_true _

theorem position_neg (x : Binary64) : (-x).position = -x.position := by
  rw [position, position, isNegative_neg, rank_neg]
  cases x.isNegative with
  | false => rfl
  | true => exact (neg_neg _).symm

/-- The difference the other way round stands at the opposite place. -/
theorem position_sub_swap (hx : x.isFinite = true) (hy : y.isFinite = true) :
    (y - x).position = -(x - y).position :=
  (sub_swap_alike hx hy).position_eq.trans (position_neg _)

end Binary64

end ZPlane
