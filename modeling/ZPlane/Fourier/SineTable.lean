import ZPlane.Complex.Basic

/-!
# The sine table

One turn of sines serves every transform: sines are read from its start and cosines from a quarter
turn on, each at a stride that depends on the size of the block.
-/

namespace ZPlane

namespace Fourier

/-- Entries for a full turn, and the largest size of a transform. -/
def turn : Nat := 65536

/-- `sin (2 π i / turn)` for every `i` below `turn`. -/
def sineTable : Array Binary64 :=
  Array.ofFn fun i : Fin turn ↦ (6.283185307179586 * (i.val : Binary64) / (turn : Binary64)).sin

/-- Evenly spaced entries of a table. -/
structure View where
  start : Nat
  step : Nat
deriving DecidableEq

namespace View

/-- The place in the table of the `n`th entry. -/
def index (v : View) (n : Nat) : Nat := v.start + n * v.step

/-- Every `k`th entry, from the first. -/
def every (v : View) (k : Nat) : View := ⟨v.start, v.step * k⟩

/-- The sines for a block of `n` points. -/
def sines (n : Nat) : View := ⟨0, turn / n⟩

/-- The cosines for a block of `n` points. -/
def cosines (n : Nat) : View := ⟨turn / 4, turn / n⟩

end View

/-- The first `n` factors `cos + i sin` of two views, if the table has them all. -/
def twiddles? {α : Type} (table : Array α) (sin cos : View) (n : Nat) : Option (List (Complex α)) :=
  (List.range n).mapM fun i ↦ do
    let s ← table[sin.index i]?
    let c ← table[cos.index i]?
    some ⟨c, s⟩

end Fourier

end ZPlane
