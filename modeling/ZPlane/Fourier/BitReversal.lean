/-!
# Bit reversal

`reverse16` exchanges neighbouring bits, pairs, nibbles and bytes of each half word in turn.
`unscramble` moves the entry of every index to the index with its bits reversed: it walks down the
indices and swaps each with its reversal when that is the greater one, so that each pair is swapped
once.
-/

namespace ZPlane

namespace Fourier

/-- Reverses the low 16 bits, and the high 16 bits as well. -/
def reverse16 (x : UInt32) : UInt32 :=
  let x := ((x &&& 0x55555555) <<< 1) ||| ((x &&& 0xAAAAAAAA) >>> 1)
  let x := ((x &&& 0x33333333) <<< 2) ||| ((x &&& 0xCCCCCCCC) >>> 2)
  let x := ((x &&& 0x0F0F0F0F) <<< 4) ||| ((x &&& 0xF0F0F0F0) >>> 4)
  ((x &&& 0x00FF00FF) <<< 8) ||| ((x &&& 0xFF00FF00) >>> 8)

/-- The index below `2 ^ k` with the bits of `i` in reverse order. -/
def reversal (k i : Nat) : Nat := (reverse16 i.toUInt32 >>> (16 - k).toUInt32).toNat

variable {β : Type}

/-- Swaps `i` with its reversal if that is greater. -/
def swapReversal (k : Nat) (xs : Array β) (i : Nat) : Array β :=
  let j := reversal k i
  if i < j then xs.swapIfInBounds i j else xs

/-- Swaps the indices from `i` down to one with their reversals. -/
def swapDown (k : Nat) : (i : Nat) → Array β → Array β
  | 0, xs => xs
  | i + 1, xs => swapDown k i (swapReversal k xs (i + 1))

/-- Restores the natural order of `2 ^ k` entries that are in bit-reversed order. -/
def unscramble (xs : Array β) : Array β := swapDown xs.size.log2 (xs.size - 1) xs

end Fourier

end ZPlane
