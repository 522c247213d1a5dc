import Mathlib
import ZPlane.Number.Scalar
import ZPlane.Proofs.Number.Nearest

/-!
# Numbers up to the sign of zero

Binary64 numbers are alike if they are the same or both are zeros.  Sums, differences and products
of alike numbers are alike (`Alike.add`, `Alike.sub`, `Alike.mul`), since the sign of a zero shows
in the sign of a zero at most.  Up to that sign the laws of zero and one hold of finite numbers.

The laws are read off the model of the machine's arithmetic, which works on unpacked numbers.
-/

namespace ZPlane

open Float.Model Float.Model.UnpackedFloat

/-! ### Unpacked numbers -/

namespace Unpacked

variable {spec : Format} {a a' b b' : UnpackedFloat}

/-- The same number, or two zeros. -/
inductive Alike : UnpackedFloat → UnpackedFloat → Prop
  | refl (a : UnpackedFloat) : Alike a a
  | zero (s t : Sign) : Alike (.zero s) (.zero t)

theorem Alike.symm (h : Alike a b) : Alike b a := by
  cases h with
  | refl => exact .refl _
  | zero s t => exact .zero t s

theorem Alike.trans {c : UnpackedFloat} (h : Alike a b) (h' : Alike b c) : Alike a c := by
  cases h with
  | refl => exact h'
  | zero s t =>
      cases h' with
      | refl => exact .zero s t
      | zero _ u => exact .zero s u

/-- It suffices to look at a zero on either side. -/
theorem Alike.congr₂ {op : UnpackedFloat → UnpackedFloat → UnpackedFloat}
    (hleft : ∀ s t b, Alike (op (.zero s) b) (op (.zero t) b))
    (hright : ∀ a s t, Alike (op a (.zero s)) (op a (.zero t)))
    (ha : Alike a a') (hb : Alike b b') : Alike (op a b) (op a' b') := by
  cases ha with
  | refl a =>
      cases hb with
      | refl b => exact .refl _
      | zero s t => exact hright a s t
  | zero s t =>
      cases hb with
      | refl b => exact hleft s t b
      | zero u v => exact (hleft s t (.zero u)).trans (hright (.zero t) u v)

theorem zero_add (spec : Format) (s : Sign) (a : UnpackedFloat) :
    Alike (UnpackedFloat.add spec (.zero s) a) a := by
  cases a with
  | infinity | notANumber | finite => exact .refl _
  | zero t => cases s <;> cases t <;> exact .zero _ _

theorem add_zero (spec : Format) (a : UnpackedFloat) (s : Sign) :
    Alike (UnpackedFloat.add spec a (.zero s)) a := by
  cases a with
  | infinity | notANumber | finite => exact .refl _
  | zero t => cases s <;> cases t <;> exact .zero _ _

theorem Alike.add (ha : Alike a a') (hb : Alike b b') :
    Alike (UnpackedFloat.add spec a b) (UnpackedFloat.add spec a' b') := by
  refine Alike.congr₂ ?_ ?_ ha hb
  · exact fun s t b ↦ (zero_add spec s b).trans (zero_add spec t b).symm
  · exact fun a s t ↦ (add_zero spec a s).trans (add_zero spec a t).symm

theorem Alike.neg (h : Alike a b) : Alike a.neg b.neg := by
  cases h with
  | refl => exact .refl _
  | zero s t => exact .zero _ _

/-- A difference is the sum with the negative. -/
theorem sub_eq_add_neg (spec : Format) (a b : UnpackedFloat) :
    UnpackedFloat.sub spec a b = UnpackedFloat.add spec a b.neg := by
  cases b with
  | notANumber | infinity | zero => cases a <;> rfl
  | finite s m e hm =>
      cases a with
      | notANumber | infinity | zero => rfl
      | finite =>
          have happly (n : ℤ) : (-s).apply n = -s.apply n := by
            cases s with
            | positive => rfl
            | negative => exact (neg_neg n).symm
          simp only [UnpackedFloat.sub, UnpackedFloat.add, UnpackedFloat.neg, happly,
            Int.sub_eq_add_neg]

theorem Alike.sub (ha : Alike a a') (hb : Alike b b') :
    Alike (UnpackedFloat.sub spec a b) (UnpackedFloat.sub spec a' b') := by
  rw [sub_eq_add_neg, sub_eq_add_neg]
  exact ha.add hb.neg

theorem zero_sub (spec : Format) (s : Sign) (a : UnpackedFloat) :
    Alike (UnpackedFloat.sub spec (.zero s) a) a.neg := by
  rw [sub_eq_add_neg]
  exact zero_add spec s a.neg

theorem Alike.mul (ha : Alike a a') (hb : Alike b b') :
    Alike (UnpackedFloat.mul spec a b) (UnpackedFloat.mul spec a' b') := by
  refine Alike.congr₂ ?_ ?_ ha hb
  · intro s t b
    cases b with
    | infinity | notANumber => exact .refl _
    | zero | finite => exact .zero _ _
  · intro a s t
    cases a with
    | infinity | notANumber => exact .refl _
    | zero | finite => exact .zero _ _

/-! ### Rounding what needs no rounding -/

/-- The exponent is the one that the format has for the number. -/
def IsCanonical (spec : Format) (m : ℕ) (e : ℤ) : Prop :=
  spec.targetExponent (totalExponent m e) = e

/-- The total exponent does not depend on how a number is written. -/
theorem totalExponent_mul_two_pow {m : ℕ} (hm : 0 < m) (k : ℕ) (e : ℤ) :
    totalExponent (m * 2 ^ k) (e - k) = totalExponent m e := by
  have hlog : (m * 2 ^ k).log2 = m.log2 + k := by
    have hle := Nat.log2_self_le hm.ne'
    have hlt := Nat.lt_log2_self (n := m)
    rw [Nat.log2_eq_iff (by positivity), add_right_comm, pow_add, pow_add 2 (m.log2 + 1)]
    exact ⟨Nat.mul_le_mul_right _ hle, Nat.mul_lt_mul_of_pos_right hlt (by positivity)⟩
  rw [totalExponent, totalExponent, hlog]
  push_cast
  ring

/-- Zeros that are shifted out leave no trace. -/
theorem shiftRight_mul_two_pow (m k : ℕ) :
    ExtendedMantissa.mk (m * 2 ^ k) false false >>> k = ⟨m, false, false⟩ := by
  induction k generalizing m with
  | zero => rw [pow_zero, mul_one]; rfl
  | succ k ih =>
      have hshift : ExtendedMantissa.mk (m * 2 ^ (k + 1)) false false >>> (k + 1) =
          (ExtendedMantissa.mk (m * 2 ^ (k + 1)) false false >>> k).shiftRightOne := rfl
      rw [hshift, pow_succ', ← mul_assoc, ih, ExtendedMantissa.shiftRightOne,
        Nat.mul_div_cancel m two_pos, Nat.mul_mod_left]
      rfl

/-- A number that the format has is not rounded. -/
theorem shiftToTargetExponent_of_isCanonical {m : ℕ} {e : ℤ} (h : IsCanonical spec m e)
    (hm : 0 < m) (k : ℕ) :
    shiftToTargetExponent spec (m * 2 ^ k) (e - k) .exact = (⟨m, false, false⟩, e) := by
  have htarget : spec.targetExponent (totalExponent m e) = e := h
  have hamount : (e - (e - k)).toNat = k := by omega
  simp only [shiftToTargetExponent, totalExponent_mul_two_pow hm, htarget, shiftToExponent, hamount]
  refine Prod.ext (shiftRight_mul_two_pow m k) ?_
  exact sub_add_cancel e k

/-- A number of the format is rounded to itself, however it is shifted. -/
theorem roundWithAccuracy_of_isCanonical {m : ℕ} {e : ℤ} (h : IsCanonical spec m e) (hm : 0 < m)
    (s : Sign) (k : ℕ) :
    roundWithAccuracy spec s (m * 2 ^ k) (e - k) .exact = .finite s m e hm := by
  have hagain := shiftToTargetExponent_of_isCanonical h hm 0
  rw [pow_zero, mul_one, Nat.cast_zero, sub_zero] at hagain
  have hrounded : (ExtendedMantissa.mk m false false).roundedMantissa = m := rfl
  simp only [roundWithAccuracy, shiftToTargetExponent_of_isCanonical h hm, hrounded, hagain,
    hm.ne', dite_false]

/-- The small numbers of the format have the least exponent. -/
theorem isCanonical_subnormal {m : ℕ} (hm : m < 2 ^ 52) : IsCanonical .binary64 m (-1074) := by
  have hlog : m.log2 ≤ 52 := by
    rcases Nat.eq_zero_or_pos m with rfl | hpos
    · decide
    · exact ((Nat.log2_lt hpos.ne').mpr hm).le
  simp only [IsCanonical, Format.targetExponent, totalExponent, Format.mantissaBits,
    Format.minExponent]
  omega

/-- Significands of 53 bits are those of the format. -/
theorem isCanonical_normal {m : ℕ} {e : ℤ} (hlower : 2 ^ 52 ≤ m) (hupper : m < 2 ^ 53)
    (he : -1074 ≤ e) : IsCanonical .binary64 m e := by
  have hlog : m.log2 = 52 := by
    rw [Nat.log2_eq_iff (by omega)]
    exact ⟨hlower, hupper⟩
  simp only [IsCanonical, Format.targetExponent, totalExponent, Format.mantissaBits,
    Format.minExponent, hlog]
  omega

/-- What is unpacked is a number of the format. -/
theorem isCanonical_unpack {b : BitVec Format.binary64.numBits} {s : Sign} {m : ℕ} {e : ℤ}
    {hm : 0 < m} (h : UnpackedFloat.unpack .binary64 b = .finite s m e hm) :
    IsCanonical .binary64 m e := by
  unfold UnpackedFloat.unpack at h
  extract_lets mantissa exponent e' sign at h
  have hmantissa : mantissa.toNat < 2 ^ 52 := mantissa.isLt
  split at h
  · split at h
    · cases h
    · cases h
  · split at h
    · split at h
      · cases h
      · rename_i hzero _
        obtain ⟨-, rfl, rfl⟩ := UnpackedFloat.finite.inj h
        have he : e' + 1 = -1074 := by
          show (exponent.toNat : ℤ) - (1023 + 52) + 1 = -1074
          rw [hzero]
          rfl
        rw [he]
        exact isCanonical_subnormal hmantissa
    · rename_i hzero
      obtain ⟨-, rfl, rfl⟩ := UnpackedFloat.finite.inj h
      have hone : 0 < exponent.toNat := BitVec.toNat_pos_of_ne_zero hzero
      have hsignificand : (1#1 ++ mantissa).toNat = 2 ^ 52 + mantissa.toNat := by
        rw [BitVec.toNat_append]
        exact (Nat.two_pow_add_eq_or_of_lt hmantissa 1).symm
      rw [hsignificand]
      refine isCanonical_normal (Nat.le_add_right _ _) (by omega) ?_
      show -1074 ≤ (exponent.toNat : ℤ) - (1023 + 52)
      omega

end Unpacked

/-! ### Binary64 numbers -/

namespace Binary64

variable {x x' y y' : Binary64}

/-- The number as the model of the machine's arithmetic has it. -/
def unpacked (x : Binary64) : UnpackedFloat := .unpack .binary64 x.bits.toBitVec

/-- What the machine makes of an unpacked result. -/
def ofUnpacked (a : UnpackedFloat) : Binary64 := ofFloat (.ofModel (.pack a))

/-- A number that is unpacked and packed is as it was. -/
theorem ofUnpacked_unpacked (hx : x.isNaN = false) : ofUnpacked x.unpacked = x :=
  ofFloat_toFloat hx

/-- The machine unpacks a number from its bits. -/
theorem unpack_toFloat (hx : x.isNaN = false) : x.toFloat.toModel.unpack = x.unpacked :=
  congrArg (fun bits : UInt64 ↦ UnpackedFloat.unpack .binary64 bits.toBitVec) (toBits_toFloat hx)

section Operations

variable {op : Float → Float → Float} {uop : UnpackedFloat → UnpackedFloat → UnpackedFloat}
  (hop : ∀ f g : Float, op f g = .ofModel (.pack (uop f.toModel.unpack g.toModel.unpack)))
include hop

/-- An operation on numbers is that on what they are unpacked to. -/
theorem lift₂_eq (hx : x.isNaN = false) (hy : y.isNaN = false) :
    lift₂ op x y = ofUnpacked (uop x.unpacked y.unpacked) := by
  rw [lift₂, if_neg (by simp [hx]), if_neg (by simp [hy]), hop, unpack_toFloat hx,
    unpack_toFloat hy, ofUnpacked]

end Operations

theorem add_eq (hx : x.isNaN = false) (hy : y.isNaN = false) :
    x + y = ofUnpacked (.add .binary64 x.unpacked y.unpacked) := lift₂_eq (fun _ _ ↦ rfl) hx hy

theorem sub_eq (hx : x.isNaN = false) (hy : y.isNaN = false) :
    x - y = ofUnpacked (.sub .binary64 x.unpacked y.unpacked) := lift₂_eq (fun _ _ ↦ rfl) hx hy

theorem mul_eq (hx : x.isNaN = false) (hy : y.isNaN = false) :
    x * y = ofUnpacked (.mul .binary64 x.unpacked y.unpacked) := lift₂_eq (fun _ _ ↦ rfl) hx hy

/-! ### Alike numbers -/

/-- The numbers are the same, or both are zeros. -/
def Alike (x y : Binary64) : Prop := x = y ∨ x.rank = 0 ∧ y.rank = 0

theorem isNaN_of_rank (hx : x.rank = 0) : x.isNaN = false := by
  rw [isNaN_eq_decide_rank, hx]
  rfl

/-- A number of rank zero is a zero. -/
theorem exists_unpacked_of_rank (hx : x.rank = 0) : ∃ s, x.unpacked = .zero s := by
  have hzero := ofRank_rank x
  rw [hx] at hzero
  rw [← hzero]
  cases x.isNegative with
  | false => exact ⟨.positive, rfl⟩
  | true => exact ⟨.negative, rfl⟩

theorem rank_ofUnpacked_zero (s : Sign) : (ofUnpacked (.zero s)).rank = 0 := by
  cases s <;> rfl

namespace Alike

theorem refl (x : Binary64) : x.Alike x := .inl rfl

theorem symm (h : x.Alike y) : y.Alike x := h.imp Eq.symm And.symm

theorem trans {z : Binary64} (h : x.Alike y) (h' : y.Alike z) : x.Alike z := by
  rcases h with rfl | ⟨hx, hy⟩
  · exact h'
  · rcases h' with rfl | ⟨-, hz⟩
    · exact .inr ⟨hx, hy⟩
    · exact .inr ⟨hx, hz⟩

theorem isNaN_eq (h : x.Alike y) : x.isNaN = y.isNaN := by
  rcases h with rfl | ⟨hx, hy⟩
  · rfl
  · rw [isNaN_of_rank hx, isNaN_of_rank hy]

theorem unpacked (h : x.Alike y) : Unpacked.Alike x.unpacked y.unpacked := by
  rcases h with rfl | ⟨hx, hy⟩
  · exact .refl _
  · obtain ⟨s, hs⟩ := exists_unpacked_of_rank hx
    obtain ⟨t, ht⟩ := exists_unpacked_of_rank hy
    rw [hs, ht]
    exact .zero s t

theorem ofUnpacked {a b : UnpackedFloat} (h : Unpacked.Alike a b) :
    (ofUnpacked a).Alike (ofUnpacked b) := by
  cases h with
  | refl => exact .refl _
  | zero s t => exact .inr ⟨rank_ofUnpacked_zero s, rank_ofUnpacked_zero t⟩

theorem neg (h : x.Alike y) : (-x).Alike (-y) := by
  rcases h with rfl | ⟨hx, hy⟩
  · exact refl _
  · exact .inr ⟨(rank_neg x).trans hx, (rank_neg y).trans hy⟩

/-- A NaN is alike to itself only. -/
theorem eq_of_isNaN (h : x.Alike y) (hx : x.isNaN = true) : x = y := by
  rcases h with rfl | ⟨hzero, -⟩
  · rfl
  · rw [isNaN_of_rank hzero] at hx
    cases hx

/-- An operation keeps what is alike if it does so on unpacked numbers; a NaN is no zero. -/
theorem lift₂ {op : Float → Float → Float} {uop : UnpackedFloat → UnpackedFloat → UnpackedFloat}
    (hop : ∀ f g : Float, op f g = .ofModel (.pack (uop f.toModel.unpack g.toModel.unpack)))
    (huop : ∀ {a a' b b'}, Unpacked.Alike a a' → Unpacked.Alike b b' →
      Unpacked.Alike (uop a b) (uop a' b'))
    (hx : x.Alike x') (hy : y.Alike y') : (lift₂ op x y).Alike (lift₂ op x' y') := by
  have hnan := hx.isNaN_eq
  have hnan' := hy.isNaN_eq
  cases hxn : x.isNaN with
  | true =>
      obtain rfl := hx.eq_of_isNaN hxn
      left
      rw [Binary64.lift₂, if_pos hxn, Binary64.lift₂, if_pos hxn]
  | false =>
      rw [hxn] at hnan
      cases hyn : y.isNaN with
      | true =>
          obtain rfl := hy.eq_of_isNaN hyn
          left
          simp [Binary64.lift₂, hxn, ← hnan, hyn]
      | false =>
          rw [hyn] at hnan'
          rw [lift₂_eq hop hxn hyn, lift₂_eq hop hnan.symm hnan'.symm]
          exact ofUnpacked (huop hx.unpacked hy.unpacked)

theorem add (hx : x.Alike x') (hy : y.Alike y') : (x + y).Alike (x' + y') :=
  lift₂ (fun _ _ ↦ rfl) Unpacked.Alike.add hx hy

theorem sub (hx : x.Alike x') (hy : y.Alike y') : (x - y).Alike (x' - y') :=
  lift₂ (fun _ _ ↦ rfl) Unpacked.Alike.sub hx hy

theorem mul (hx : x.Alike x') (hy : y.Alike y') : (x * y).Alike (x' * y') :=
  lift₂ (fun _ _ ↦ rfl) Unpacked.Alike.mul hx hy

theorem liftOne (f : Float → Float) (h : x.Alike y) : (liftOne f x).Alike (liftOne f y) := by
  rcases h with rfl | ⟨hx, hy⟩
  · exact refl _
  · left
    rw [Binary64.liftOne, if_pos hx, Binary64.liftOne, if_pos hy]

theorem liftZero (f : Float → Float) (h : x.Alike y) : (liftZero f x).Alike (liftZero f y) := by
  rcases h with rfl | ⟨hx, hy⟩
  · exact refl _
  · right
    rw [Binary64.liftZero, if_pos hx, Binary64.liftZero, if_pos hy]
    exact ⟨hx, hy⟩

/-- Zeros are at the same place of the order. -/
theorem position_eq (h : x.Alike y) : x.position = y.position := by
  rcases h with rfl | ⟨hx, hy⟩
  · rfl
  · simp [position, hx, hy]

/-- Alike numbers are numerically equal if they are no NaNs. -/
theorem agrees (h : x.Alike y) (hx : x.isNaN = false) : x.agrees y = true := by
  have hle : x ≤ y := ⟨hx, h.isNaN_eq ▸ hx, h.position_eq.le⟩
  have hge : y ≤ x := ⟨h.isNaN_eq ▸ hx, hx, h.position_eq.ge⟩
  simp [Binary64.agrees, hle, hge]

end Alike

/-! ### Order and zero -/

/-- The numbers that equal zero are the two zeros. -/
theorem agrees_zero_iff : x.agrees 0 = true ↔ x.rank = 0 := by
  constructor
  · intro h
    simp only [agrees, Bool.and_eq_true, decide_eq_true_eq] at h
    obtain ⟨⟨-, -, hle⟩, -, -, hge⟩ := h
    have hposition : x.position = 0 := le_antisymm hle hge
    rw [position] at hposition
    split at hposition
    · omega
    · omega
  · intro h
    exact Alike.agrees (.inr ⟨h, rfl⟩) (isNaN_of_rank h)

/-- A number other than zero is below it exactly if its sign is set. -/
theorem lt_zero_iff (hx : x.isNaN = false) (hne : x.rank ≠ 0) : x < 0 ↔ x.isNegative = true := by
  have hlt : x < 0 ↔ x.position < 0 := ⟨fun h ↦ h.2.2, fun h ↦ ⟨hx, rfl, h⟩⟩
  rw [hlt, position]
  split
  case isTrue h => exact iff_of_true (by omega) h
  case isFalse h => exact iff_of_false (by omega) h

/-! ### Zero and one -/

theorem not_isFinite_infinity (s : Sign) : (ofUnpacked (.infinity s)).isFinite = false := by
  cases s <;> rfl

theorem isNaN_zero : (0 : Binary64).isNaN = false := rfl

theorem isNaN_one : (1 : Binary64).isNaN = false := rfl

/-- A finite number is a zero or has a significand. -/
theorem unpacked_of_isFinite (hx : x.isFinite = true) : (∃ s, x.unpacked = .zero s) ∨
    ∃ s m e hm, x.unpacked = .finite s m e hm := by
  have hself := ofUnpacked_unpacked (isNaN_of_isFinite hx)
  rw [← hself] at hx
  cases hu : x.unpacked with
  | zero s => exact .inl ⟨s, rfl⟩
  | finite s m e hm => exact .inr ⟨s, m, e, hm, rfl⟩
  | infinity s =>
      rw [hu, not_isFinite_infinity] at hx
      cases hx
  | notANumber =>
      rw [hu] at hx
      cases hx

theorem neg_zero_alike : (-0 : Binary64).Alike 0 := .inr ⟨rank_neg 0, rfl⟩

theorem mul_zero_alike (hx : x.isFinite = true) : (x * 0).Alike 0 := by
  have hzero : (0 : Binary64).unpacked = .zero .positive := rfl
  have hmul : ∃ s, UnpackedFloat.mul .binary64 x.unpacked (.zero .positive) = .zero s := by
    rcases unpacked_of_isFinite hx with ⟨s, hu⟩ | ⟨s, m, e, hm, hu⟩
    · exact ⟨s * .positive, by rw [hu]; rfl⟩
    · exact ⟨s * .positive, by rw [hu]; rfl⟩
  obtain ⟨s, hs⟩ := hmul
  rw [mul_eq (isNaN_of_isFinite hx) isNaN_zero, hzero, hs]
  exact .inr ⟨rank_ofUnpacked_zero s, rfl⟩

/-- One is `2 ^ 52` at the exponent `-52`, so a product with it is rounded to the other factor. -/
theorem mul_one (hx : x.isNaN = false) : x * 1 = x := by
  have hone : (1 : Binary64).unpacked = .finite .positive (2 ^ 52) (-(52 : ℕ)) (by decide) := rfl
  have hsign (s : Sign) : s * .positive = s := by cases s <;> rfl
  have hmul : UnpackedFloat.mul .binary64 x.unpacked (1 : Binary64).unpacked = x.unpacked := by
    rw [hone]
    cases hu : x.unpacked with
    | notANumber => rfl
    | infinity s => exact congrArg _ (hsign s)
    | zero s => exact congrArg _ (hsign s)
    | finite s m e hm =>
        have hround := Unpacked.roundWithAccuracy_of_isCanonical (Unpacked.isCanonical_unpack hu)
          hm s 52
        rw [UnpackedFloat.mul, hsign]
        exact hround
  rw [mul_eq hx isNaN_one, hmul, ofUnpacked_unpacked hx]

theorem add_zero_alike (hx : x.isNaN = false) : (x + 0).Alike x := by
  have hzero : (0 : Binary64).unpacked = .zero .positive := rfl
  have halike := Alike.ofUnpacked (Unpacked.add_zero .binary64 x.unpacked .positive)
  rwa [← hzero, ← add_eq hx isNaN_zero, ofUnpacked_unpacked hx] at halike

theorem zero_add_alike (hx : x.isNaN = false) : (0 + x).Alike x := by
  have hzero : (0 : Binary64).unpacked = .zero .positive := rfl
  have halike := Alike.ofUnpacked (Unpacked.zero_add .binary64 .positive x.unpacked)
  rwa [← hzero, ← add_eq isNaN_zero hx, ofUnpacked_unpacked hx] at halike

/-- Negation changes nothing but the sign. -/
theorem unpacked_neg (x : Binary64) : (-x).unpacked = x.unpacked.neg := by
  have hbits : (-x).bits.toBitVec = x.bits.toBitVec ^^^ 0x8000000000000000#64 := rfl
  have hmantissa : @unpackMantissa .binary64 (-x).bits.toBitVec =
      @unpackMantissa .binary64 x.bits.toBitVec := by
    rw [hbits, unpackMantissa_def, BitVec.extractLsb'_xor, unpackMantissa_def]
    exact BitVec.xor_zero
  have hexponent : @unpackExponent .binary64 (-x).bits.toBitVec =
      @unpackExponent .binary64 x.bits.toBitVec := by
    rw [hbits, unpackExponent_def, BitVec.extractLsb'_xor, unpackExponent_def]
    exact BitVec.xor_zero
  have hsign : Sign.ofBitVec (@unpackSign .binary64 (-x).bits.toBitVec) =
      -Sign.ofBitVec (@unpackSign .binary64 x.bits.toBitVec) := by
    rw [hbits, unpackSign_def, BitVec.extractLsb'_xor, unpackSign_def]
    rcases BitVec.eq_zero_or_eq_one (x.bits.toBitVec.extractLsb' 63 1) with h | h
    · exact h ▸ rfl
    · exact h ▸ rfl
  unfold unpacked UnpackedFloat.unpack
  simp only [hmantissa, hexponent, hsign]
  split
  · split
    · rfl
    · rfl
  · split
    · split
      · rfl
      · rfl
    · rfl

theorem zero_sub_alike (hx : x.isNaN = false) : (0 - x).Alike (-x) := by
  have hzero : (0 : Binary64).unpacked = .zero .positive := rfl
  have hneg : (-x).isNaN = false := (isNaN_neg x).trans hx
  have halike := Alike.ofUnpacked (Unpacked.zero_sub .binary64 .positive x.unpacked)
  rwa [← hzero, ← sub_eq isNaN_zero hx, ← unpacked_neg, ofUnpacked_unpacked hneg] at halike

end Binary64

end ZPlane
