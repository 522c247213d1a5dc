import ZPlane.Number.Decimal

/-!
# Numbers as text

`fixed p` writes a number with `p` places. `shortest` finds the fewest digits that read back as the
number, of those the nearest to it; `plain` and `mantissa` write the digits of a decimal.
-/

namespace ZPlane

/-- `cs` with zeros in front, up to `n` characters. -/
def padZeros (n : Nat) (cs : List Char) : List Char := List.replicate (n - cs.length) '0' ++ cs

namespace Decimal

/-- Whole digits and `places` fraction digits of `coefficient / 10 ^ places`. -/
def pointed (coefficient places : Nat) : List Char :=
  let whole := digits (coefficient / tenTo places)
  if places = 0 then whole
  else whole ++ '.' :: padZeros places (digits (coefficient % tenTo places))

/-- The same decimal without trailing zeros in its coefficient, looking at most `fuel` deep. -/
def strip : Nat → Decimal → Decimal
  | 0, d => d
  | fuel + 1, d =>
    if d.coefficient ≠ 0 ∧ d.coefficient % 10 = 0 then
      strip fuel ⟨d.negative, d.coefficient / 10, d.exponent + 1⟩
    else d

end Decimal

namespace Binary64

/-- The sign is written for every negative number, a zero too, and never for a NaN. -/
def signText (x : Binary64) : List Char := if x.isNegative then ['-'] else []

/-- The number rounded to `p` places, halves to even. -/
def fixed (p : Nat) (x : Binary64) : String :=
  if x.isNaN then "NaN"
  else if x.isFinite then
    String.ofList (x.signText ++ Decimal.pointed (x.toMultiple (-(p : Int))).coefficient p)
  else String.ofList (x.signText ++ "inf".toList)

/-- Of the two neighbours of a finite number on the grid `10 ^ e`, those that read back as it,
the nearer first; of two equally near ones the even one is first. -/
def readingBack (x : Binary64) (e : Int) : List Decimal :=
  let (num, den) := x.inUnits e
  let q := num / den
  let near := nearest num den
  [near, if near = q then q + 1 else q].filterMap fun c ↦
    let d : Decimal := ⟨x.isNegative, c, e⟩
    if d.toBinary64 = x then some d else none

/-- The first decimal that reads back as `x`, with the number of digits rising from `n`. -/
def shortestFrom (x : Binary64) (lead : Int) : Nat → Nat → Decimal
  | 0, _ => x.exactly
  | fuel + 1, n =>
    match x.readingBack (lead - n + 1) with
    | d :: _ => d
    | [] => shortestFrom x lead fuel (n + 1)

/-- The decimal with the fewest digits that reads back as the nonzero finite number `x`. -/
def shortest (x : Binary64) : Decimal :=
  Decimal.strip 800 (shortestFrom x x.leadingExponent 17 1)

end Binary64

namespace Decimal

/-- The exponent of the leading digit. -/
def lead (d : Decimal) : Int := d.exponent + (digits d.coefficient).length - 1

/-- Digits with a point and at least one place: the plain form of a decimal. -/
def plain (d : Decimal) : List Char :=
  if 0 ≤ d.exponent then digits (d.coefficient * tenTo d.exponent.toNat) ++ ".0".toList
  else pointed d.coefficient (-d.exponent).toNat

/-- One digit before the point: the mantissa of the scientific form, without an idle point. -/
def mantissa (d : Decimal) : List Char :=
  match digits d.coefficient with
  | [] => []
  | [c] => [c]
  | c :: cs => c :: '.' :: cs

end Decimal

end ZPlane
