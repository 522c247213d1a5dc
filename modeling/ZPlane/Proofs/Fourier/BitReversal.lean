import Mathlib
import ZPlane.Complex.Basic
import ZPlane.Fourier.BitReversal

/-!
# Bit reversal moves every index to its mirror image

Each line of `reverse16` exchanges every bit with a partner, a power of two away, so the four lines
together send bit `b` to `b ^^^ 15`, which is `15 - b` in the low half word.  `reversal k` is then
an involution below `2 ^ k`, and since `unscramble` swaps each pair of it exactly once, it permutes
a buffer by it.  As a permutation of the indices it is `mirror k`, which reverses `k` bits.
-/

namespace ZPlane

namespace Fourier

/-! ### The bits of a word -/

/-- Moves the bits of `low` up by `s` and those of `high` down by `s`. -/
def exchange (low high s x : UInt32) : UInt32 := ((x &&& low) <<< s) ||| ((x &&& high) >>> s)

/-- Of each bit and its partner `s` places away, `low` has the lower one and `high` the other. -/
def Splits (low high : UInt32) (s : Nat) : Prop :=
  ∀ b : Fin 32, if b.val ^^^ s < b
    then s + (b.val ^^^ s) = b ∧ low.toBitVec.getLsbD (b ^^^ s) = true ∧
      high.toBitVec.getLsbD (s + b) = false
    else b.val ^^^ s = s + b ∧ (s ≤ b → low.toBitVec.getLsbD (b - s) = false) ∧
      high.toBitVec.getLsbD (s + b) = true

instance (low high : UInt32) (s : Nat) : Decidable (Splits low high s) :=
  inferInstanceAs (Decidable (∀ _ : Fin 32, _))

/-- Each bit changes places with its partner. -/
theorem getLsbD_exchange {low high s : UInt32} (h : Splits low high s.toNat) (hs : s.toNat < 32)
    (x : UInt32) {b : Nat} (hb : b < 32) :
    (exchange low high s x).toBitVec.getLsbD b = x.toBitVec.getLsbD (b ^^^ s.toNat) := by
  have hmod : ((s.toBitVec % 32) : BitVec 32).toNat = s.toNat := by
    simp [BitVec.toNat_umod, Nat.mod_eq_of_lt hs]
  have hbit := h ⟨b, hb⟩
  simp only [exchange, UInt32.toBitVec_or, UInt32.toBitVec_and, UInt32.toBitVec_shiftRight,
    UInt32.toBitVec_shiftLeft, BitVec.getLsbD_or, BitVec.shiftLeft_eq', BitVec.ushiftRight_eq',
    BitVec.getLsbD_shiftLeft, BitVec.getLsbD_ushiftRight, BitVec.getLsbD_and, hmod, hb,
    decide_true, Bool.true_and]
  split at hbit
  · obtain ⟨e, hlow, hhigh⟩ := hbit
    simp only at e
    have hsub : b - s.toNat = b ^^^ s.toNat := by omega
    simp [hsub, hlow, hhigh, show ¬ b < s.toNat by omega]
  · obtain ⟨e, hlow, hhigh⟩ := hbit
    simp only at e hlow hhigh
    by_cases hsb : s.toNat ≤ b
    · simp [e, hlow hsb, hhigh]
    · simp [e, hhigh, not_le.mp hsb]

/-- The bits of both halves of a word are reversed. -/
theorem getLsbD_reverse16 (x : UInt32) {b : Nat} (hb : b < 32) :
    (reverse16 x).toBitVec.getLsbD b = x.toBitVec.getLsbD (b ^^^ 8 ^^^ 4 ^^^ 2 ^^^ 1) := by
  have h8 : b ^^^ 8 < 2 ^ 5 := Nat.xor_lt_two_pow hb (by decide)
  have h4 : b ^^^ 8 ^^^ 4 < 2 ^ 5 := Nat.xor_lt_two_pow h8 (by decide)
  have h2 : b ^^^ 8 ^^^ 4 ^^^ 2 < 2 ^ 5 := Nat.xor_lt_two_pow h4 (by decide)
  calc (reverse16 x).toBitVec.getLsbD b
    _ = _ := getLsbD_exchange (s := 8) (by decide) (by decide) _ hb
    _ = _ := getLsbD_exchange (s := 4) (by decide) (by decide) _ h8
    _ = _ := getLsbD_exchange (s := 2) (by decide) (by decide) _ h4
    _ = _ := getLsbD_exchange (s := 1) (by decide) (by decide) _ h2

/-- The low half word is mirrored, whatever the high one holds. -/
theorem testBit_reverse16 (x : UInt32) {b : Nat} (hb : b < 16) :
    (reverse16 x).toNat.testBit b = x.toNat.testBit (15 - b) := by
  have mirror : ∀ c : Fin 16, c.val ^^^ 8 ^^^ 4 ^^^ 2 ^^^ 1 = 15 - c := by decide
  have h := getLsbD_reverse16 x (show b < 32 by omega)
  rw [mirror ⟨b, hb⟩] at h
  exact h

/-- No bit of the low half word goes up. -/
theorem testBit_reverse16_of_le (x : UInt32) (hx : x.toNat < 2 ^ 16) {b : Nat} (hb : 16 ≤ b) :
    (reverse16 x).toNat.testBit b = false := by
  have mirror : ∀ c : Fin 32, 16 ≤ c.val → 16 ≤ c.val ^^^ 8 ^^^ 4 ^^^ 2 ^^^ 1 := by decide
  by_cases h32 : b < 32
  · refine (getLsbD_reverse16 x h32).trans (Nat.testBit_lt_two_pow (lt_of_lt_of_le hx ?_))
    exact Nat.pow_le_pow_right Nat.two_pos (mirror ⟨b, h32⟩ hb)
  · refine Nat.testBit_lt_two_pow (lt_of_lt_of_le (reverse16 x).toNat_lt ?_)
    exact Nat.pow_le_pow_right Nat.two_pos (not_lt.mp h32)

/-! ### The reversal of an index -/

section Reversal

variable {k i : Nat}

/-- The bits of an index are reversed. -/
theorem testBit_reversal (hk : k ≤ 16) (hi : i < 2 ^ k) (b : Nat) :
    (reversal k i).testBit b = (decide (b < k) && i.testBit (k - 1 - b)) := by
  have hi16 : i < 2 ^ 16 := lt_of_lt_of_le hi (Nat.pow_le_pow_right Nat.two_pos hk)
  have hx : i.toUInt32.toNat = i :=
    UInt32.toNat_ofNat_of_lt' (by simp only [UInt32.size]; omega)
  have hs : (16 - k).toUInt32.toNat = 16 - k :=
    UInt32.toNat_ofNat_of_lt' (by simp only [UInt32.size]; omega)
  rw [reversal, UInt32.toNat_shiftRight, Nat.testBit_shiftRight, hs, Nat.mod_eq_of_lt (by omega)]
  by_cases hb : b < k
  · rw [testBit_reverse16 _ (by omega), hx, decide_eq_true hb, Bool.true_and]
    congr 1
    omega
  · rw [testBit_reverse16_of_le _ (by rw [hx]; exact hi16) (by omega), decide_eq_false hb,
      Bool.false_and]

theorem reversal_lt (hk : k ≤ 16) (hi : i < 2 ^ k) : reversal k i < 2 ^ k := by
  refine Nat.lt_pow_two_of_testBit _ fun b hb ↦ ?_
  rw [testBit_reversal hk hi, decide_eq_false (not_lt.mpr hb), Bool.false_and]

/-- Reversing the bits twice changes nothing. -/
theorem reversal_reversal (hk : k ≤ 16) (hi : i < 2 ^ k) : reversal k (reversal k i) = i := by
  refine Nat.eq_of_testBit_eq fun b ↦ ?_
  rw [testBit_reversal hk (reversal_lt hk hi)]
  by_cases hb : b < k
  · rw [testBit_reversal hk hi, decide_eq_true hb, decide_eq_true (by omega), Bool.true_and,
      Bool.true_and]
    congr 1
    omega
  · rw [decide_eq_false hb, Bool.false_and]
    refine (Nat.testBit_lt_two_pow (lt_of_lt_of_le hi ?_)).symm
    exact Nat.pow_le_pow_right Nat.two_pos (not_lt.mp hb)

theorem reversal_zero (hk : k ≤ 16) : reversal k 0 = 0 := by
  refine Nat.eq_of_testBit_eq fun b ↦ ?_
  rw [testBit_reversal hk (Nat.two_pow_pos k), Nat.zero_testBit, Nat.zero_testBit, Bool.and_false]

/-- One more bit above a clear one: the reversal is even. -/
theorem reversal_succ_of_lt (hk : k + 1 ≤ 16) (hi : i < 2 ^ k) :
    reversal (k + 1) i = 2 * reversal k i := by
  refine Nat.eq_of_testBit_eq fun b ↦ ?_
  have hi' : i < 2 ^ (k + 1) := lt_of_lt_of_le hi (Nat.pow_le_pow_right Nat.two_pos (by omega))
  rw [testBit_reversal hk hi']
  cases b with
  | zero => simp [Nat.testBit_lt_two_pow hi]
  | succ b =>
      rw [Nat.testBit_succ, Nat.mul_div_cancel_left _ Nat.two_pos, testBit_reversal (by omega) hi]
      congr 2
      · simp
      · omega

/-- A set top bit becomes the lowest one. -/
theorem reversal_succ_add (hk : k + 1 ≤ 16) (hi : i < 2 ^ k) :
    reversal (k + 1) (2 ^ k + i) = 2 * reversal k i + 1 := by
  refine Nat.eq_of_testBit_eq fun b ↦ ?_
  rw [testBit_reversal hk (by rw [pow_succ]; omega)]
  cases b with
  | zero => simp [Nat.testBit_two_pow_add_eq, Nat.testBit_lt_two_pow hi]
  | succ b =>
      rw [Nat.testBit_succ, show (2 * reversal k i + 1) / 2 = reversal k i by omega,
        testBit_reversal (by omega) hi]
      by_cases hb : b < k
      · rw [Nat.testBit_two_pow_add_gt (by omega)]
        congr 2
        · simp
        · omega
      · simp [hb]

end Reversal

/-! ### The permutation of a buffer -/

section Buffer

variable {β : Type} {k : Nat}

@[simp] theorem size_swapReversal (xs : Array β) (i : Nat) :
    (swapReversal k xs i).size = xs.size := by
  simp only [swapReversal]
  split
  · exact Array.size_swapIfInBounds
  · rfl

@[simp] theorem size_swapDown (i : Nat) (xs : Array β) : (swapDown k i xs).size = xs.size := by
  induction i generalizing xs with
  | zero => rfl
  | succ i ih => rw [swapDown, ih, size_swapReversal]

@[simp] theorem size_unscramble (xs : Array β) : (unscramble xs).size = xs.size := size_swapDown _ _

/-- One swap exchanges an index with its reversal, if that is greater, and leaves the others. -/
theorem getElem?_swapReversal (hk : k ≤ 16) {xs : Array β} (hxs : xs.size = 2 ^ k) {i j : Nat}
    (hi : i < 2 ^ k) (hj : j < 2 ^ k) :
    (swapReversal k xs i)[j]? =
      if min j (reversal k j) = i then xs[reversal k j]? else xs[j]? := by
  have hri := reversal_lt hk hi
  have hrr := reversal_reversal hk hi
  simp only [swapReversal]
  split
  · rename_i hlt
    rw [Array.swapIfInBounds_def, dif_pos (by omega), dif_pos (by omega), Array.getElem?_swap]
    by_cases hji : j = i
    · subst hji
      rw [if_neg (by omega), if_pos rfl, if_pos (by omega), Array.getElem?_eq_getElem]
    · by_cases hjr : reversal k i = j
      · subst hjr
        rw [if_pos rfl, hrr, if_pos (by omega), Array.getElem?_eq_getElem]
      · rw [if_neg hjr, if_neg (by omega), if_neg]
        intro hmin
        rcases min_choice j (reversal k j) with h | h
        · omega
        · exact hjr (by rw [← hmin, h, reversal_reversal hk hj])
  · rename_i hle
    split
    · rename_i hmin
      have hfix : reversal k j = j := by
        rcases min_choice j (reversal k j) with h | h
        · obtain rfl : j = i := by omega
          omega
        · have hij : reversal k i = j := by rw [← hmin, h, reversal_reversal hk hj]
          omega
      rw [hfix]
    · rfl

/-- The pairs whose smaller index has been passed are swapped. -/
theorem getElem?_swapDown (hk : k ≤ 16) {xs : Array β} (hxs : xs.size = 2 ^ k) {i j : Nat}
    (hi : i < 2 ^ k) (hj : j < 2 ^ k) :
    (swapDown k i xs)[j]? = if min j (reversal k j) ≤ i then xs[reversal k j]? else xs[j]? := by
  have hrj := reversal_lt hk hj
  have hrr := reversal_reversal hk hj
  induction i generalizing xs with
  | zero =>
      rw [swapDown]
      split
      · rename_i hmin
        have hj0 : j = 0 := by
          rcases min_choice j (reversal k j) with h | h
          · omega
          · rw [← hrr, show reversal k j = 0 by omega, reversal_zero hk]
        rw [hj0, reversal_zero hk]
      · rfl
  | succ i ih =>
      rw [swapDown, ih (by rw [size_swapReversal, hxs]) (by omega),
        getElem?_swapReversal hk hxs hi hrj, getElem?_swapReversal hk hxs hi hj, hrr,
        min_comm (reversal k j) j]
      by_cases hlt : min j (reversal k j) ≤ i
      · rw [if_pos hlt, if_neg (by omega), if_pos (by omega)]
      · by_cases heq : min j (reversal k j) = i + 1
        · rw [if_neg hlt, if_pos heq, if_pos (by omega)]
        · rw [if_neg hlt, if_neg heq, if_neg (by omega)]

/-- Every index has the entry of the index with its bits reversed. -/
theorem getElem?_unscramble (hk : k ≤ 16) {xs : Array β} (hxs : xs.size = 2 ^ k) {j : Nat}
    (hj : j < 2 ^ k) : (unscramble xs)[j]? = xs[reversal k j]? := by
  have hlog : xs.size.log2 = k := by rw [hxs, Nat.log2_two_pow]
  rw [unscramble, hlog, getElem?_swapDown hk hxs (by omega) hj, if_pos (by omega)]

end Buffer

/-! ### The reversal as a permutation -/

section Permutation

variable {β : Type} {k : Nat}

/-- Reverses the `k` bits of an index. -/
def mirror (k : Nat) : Equiv.Perm (Fin (2 ^ k)) :=
  Function.Involutive.toPerm (fun i ↦ (BitVec.ofFin i).reverse.toFin) fun _ ↦ by
    simp [BitVec.reverse_reverse_eq]

theorem testBit_mirror (i : Fin (2 ^ k)) {b : Nat} (hb : b < k) :
    (mirror k i).val.testBit b = i.val.testBit (k - 1 - b) := by
  have h : (BitVec.ofFin i).reverse.getLsbD b = (BitVec.ofFin i).getMsbD b :=
    BitVec.getLsbD_reverse
  rw [BitVec.getMsbD_eq_getLsbD, decide_eq_true hb, Bool.true_and] at h
  exact h

theorem mirror_mirror (i : Fin (2 ^ k)) : mirror k (mirror k i) = i :=
  Function.Involutive.toPerm_involutive _ i

/-- What the word operations compute is the reversal of the bits. -/
theorem reversal_eq_mirror (hk : k ≤ 16) (i : Fin (2 ^ k)) : reversal k i = mirror k i := by
  refine Nat.eq_of_testBit_eq fun b ↦ ?_
  rw [testBit_reversal hk i.isLt]
  by_cases hb : b < k
  · rw [decide_eq_true hb, Bool.true_and, testBit_mirror i hb]
  · have hle : 2 ^ k ≤ 2 ^ b := Nat.pow_le_pow_right Nat.two_pos (not_lt.mp hb)
    rw [decide_eq_false hb, Bool.false_and,
      Nat.testBit_lt_two_pow (lt_of_lt_of_le (mirror k i).isLt hle)]

/-- The buffer is permuted by the mirror. -/
theorem unscramble_ofFn (hk : k ≤ 16) (xs : Fin (2 ^ k) → β) :
    unscramble (Array.ofFn xs) = Array.ofFn fun i ↦ xs (mirror k i) := by
  refine Array.ext (by simp) fun i hi hi' ↦ ?_
  have hlt : i < 2 ^ k := by simpa using hi'
  have hsize : (Array.ofFn xs).size = 2 ^ k := Array.size_ofFn
  have hslot := getElem?_unscramble hk hsize hlt
  rw [reversal_eq_mirror hk ⟨i, hlt⟩, Array.getElem?_eq_getElem hi,
    Array.getElem?_eq_getElem (by simp), Option.some.injEq] at hslot
  rw [hslot, Array.getElem_ofFn, Array.getElem_ofFn]

/-- Of `2 ^ k` points with the given parts, slot `i` is left with the point of the slot that has the
`k` bits of `i` in reverse order, and a second pass restores the points. -/
theorem unscramble_reverses_bits {α : Type} (hk : k ≤ 16) (re im : Fin (2 ^ k) → α) :
    (∀ i : Fin (2 ^ k), (reverse16 i.val.toUInt32 >>> (16 - k).toUInt32).toNat = mirror k i ∧
      (mirror k i).val < 2 ^ k ∧
      ∀ b < k, (mirror k i).val.testBit b = i.val.testBit (k - 1 - b)) ∧
    unscramble (Array.ofFn fun i ↦ (⟨re i, im i⟩ : Complex α)) =
      Array.ofFn (fun i ↦ (⟨re (mirror k i), im (mirror k i)⟩ : Complex α)) ∧
    unscramble (unscramble (Array.ofFn fun i ↦ (⟨re i, im i⟩ : Complex α))) =
      Array.ofFn (fun i ↦ (⟨re i, im i⟩ : Complex α)) ∧
    ∀ (x : UInt32) (b : Nat), b < 16 →
      (reverse16 x).toNat.testBit (15 - b) = x.toNat.testBit b := by
  refine ⟨fun i ↦ ⟨reversal_eq_mirror hk i, (mirror k i).isLt, fun b hb ↦ testBit_mirror i hb⟩,
    unscramble_ofFn hk _, ?_, fun x b hb ↦ ?_⟩
  · rw [unscramble_ofFn hk, unscramble_ofFn hk]
    simp only [mirror_mirror]
  · rw [testBit_reverse16 x (by omega), show 15 - (15 - b) = b by omega]

/-- The largest size takes no shift. -/
theorem unscramble_reverses_bits_turn :
    16 ≤ 16 ∧ unscramble (Array.ofFn fun i : Fin (2 ^ 16) ↦ (⟨i.val, 1⟩ : Complex ℕ)) =
      Array.ofFn (fun i : Fin (2 ^ 16) ↦ (⟨(mirror 16 i).val, 1⟩ : Complex ℕ)) :=
  ⟨le_rfl, (unscramble_reverses_bits (k := 16) le_rfl (fun i ↦ i.val) fun _ ↦ 1).2.1⟩

end Permutation

end Fourier

end ZPlane
