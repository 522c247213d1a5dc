import ZPlane.Number.Binary64

/-!
# Rounding to the nearest binary64

`nearest num den` is `num / den` rounded to an integer with halves to even, and
`Binary64.ofRatio` rounds a ratio to the nearest binary64 in the same way. Ranks make the second
the first: a rank is `scale * 2 ^ 52` plus the rounded significand, a carry out of the significand
is a step to the next scale, and a carry out of the last scale is infinity.
-/

namespace ZPlane

/-- `num / den` rounded to the nearest integer, a half to the even one. -/
def nearest (num den : Nat) : Nat :=
  let q := num / den
  let r := num % den
  if 2 * r < den then q
  else if den < 2 * r then q + 1
  else q + q % 2

namespace Binary64

/-- The scale at which `num / den` units of `2 ^ -1074` has a significand of 53 bits, or `0`. -/
def scaleOf (num den : Nat) : Nat := (num / den).log2 - 52

/-- The rank nearest to `num / den` units of `2 ^ -1074`. -/
def nearestRank (num den : Nat) : Nat :=
  let s := scaleOf num den
  min infinityRank (s * ranksPerScale + nearest num (den <<< s))

/-- The binary64 nearest to `num / den`. -/
def ofRatio (negative : Bool) (num den : Nat) : Binary64 :=
  ofRank negative (nearestRank (num <<< 1074) den)

def ofNat (n : Nat) : Binary64 := ofRatio false n 1

def ofInt (n : Int) : Binary64 := ofRatio (decide (n < 0)) n.natAbs 1

instance : NatCast Binary64 := ⟨ofNat⟩

/-- The number of `m` units of `2 ^ -1074`. -/
def ofUnits (negative : Bool) (m : Nat) : Binary64 := ofRank negative (nearestRank m 1)

end Binary64

end ZPlane
