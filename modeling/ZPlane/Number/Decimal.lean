import ZPlane.Number.Rounding

/-!
# Decimals

A decimal is `coefficient * 10 ^ exponent` with a sign. It is read from text by splitting off the
digits, and turned into the nearest binary64. `toMultiple e` and `significant n` go the other way,
from a binary64 to the nearest multiple of `10 ^ e` or decimal with `n` digits, halves to even.
-/

namespace ZPlane

/-- A signed decimal `coefficient * 10 ^ exponent`. -/
structure Decimal where
  negative : Bool
  coefficient : Nat
  exponent : Int
deriving DecidableEq

/-- The value of a digit character. -/
def digitValue (c : Char) : Nat := c.toNat - '0'.toNat

/-- The number that a list of digits stands for. -/
def ofDigits (cs : List Char) : Nat := cs.foldl (fun n c ↦ 10 * n + digitValue c) 0

/-- The decimal digits of a number, most significant first. -/
def digits (n : Nat) : List Char := Nat.toDigits 10 n

/-- The powers of ten. -/
def tenTo (n : Nat) : Nat := Nat.pow 10 n

namespace Decimal

/-- A decimal written as whole digits, fraction digits and an exponent. -/
def ofParts (negative : Bool) (whole fraction : List Char) (exponent : Int) : Decimal :=
  ⟨negative, ofDigits (whole ++ fraction), exponent - fraction.length⟩

/-- The nearest binary64. Exponents beyond the range of binary64 are settled without their power:
with a nonzero coefficient, `10 ^ 400` is infinite and anything below `10 ^ -400` is zero. -/
def toBinary64 (d : Decimal) : Binary64 :=
  if d.coefficient = 0 then .ofRank d.negative 0
  else if 400 < d.exponent then .ofRank d.negative Binary64.infinityRank
  else if d.exponent + d.coefficient.log2 < -400 then .ofRank d.negative 0
  else if 0 ≤ d.exponent then .ofRatio d.negative (d.coefficient * tenTo d.exponent.toNat) 1
  else .ofRatio d.negative d.coefficient (tenTo (-d.exponent).toNat)

end Decimal

namespace Binary64

instance : OfScientific Binary64 :=
  ⟨fun m negative e ↦ Decimal.toBinary64 ⟨false, m, if negative then -(e : Int) else e⟩⟩

/-- The exponent of the leading decimal digit of a nonzero finite number. -/
def leadingExponent (x : Binary64) : Int :=
  ((digits ((x.magnitude * tenTo 400) >>> 1074)).length : Int) - 401

/-- The finite number in units of `10 ^ e`, as a ratio. -/
def inUnits (x : Binary64) (e : Int) : Nat × Nat :=
  if 0 ≤ e then (x.magnitude, tenTo e.toNat <<< 1074)
  else (x.magnitude * tenTo (-e).toNat, 1 <<< 1074)

/-- The nearest multiple of `10 ^ e` of a finite number. -/
def toMultiple (x : Binary64) (e : Int) : Decimal :=
  let (num, den) := x.inUnits e
  ⟨x.isNegative, nearest num den, e⟩

/-- The nearest decimal with `n` significant digits of a nonzero finite number. -/
def significant (n : Nat) (x : Binary64) : Decimal :=
  let d := x.toMultiple (x.leadingExponent - n + 1)
  if d.coefficient < tenTo n then d else ⟨d.negative, d.coefficient / 10, d.exponent + 1⟩

/-- The decimal that a finite number is. -/
def exactly (x : Binary64) : Decimal :=
  ⟨x.isNegative, x.magnitude * Nat.pow 5 1074, -1074⟩

end Binary64

end ZPlane
