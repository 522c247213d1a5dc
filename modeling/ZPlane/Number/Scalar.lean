import ZPlane.Number.Decimal

/-!
# Scalars

The algorithms on polynomials, transforms and responses are written over any scalars with
arithmetic, an order and the operations of `Scalar`. They run on `Binary64`, and over a field of
real numbers the same definitions are the exact algorithms.
-/

namespace ZPlane

/-- What the algorithms ask of a scalar besides its arithmetic and its order. -/
class Scalar (α : Type) where
  abs : α → α
  /-- The Euclidean length of a pair. -/
  hypot : α → α → α
  /-- A positive base to a power. -/
  power : α → α → α
  isFinite : α → Bool
  /-- Values that differ by less than this count as equal. -/
  tolerance : α

/-- The two values differ by less than `ε`. -/
def closeTo {α : Type} [Sub α] [LT α] [DecidableLT α] [Scalar α] (a b ε : α) : Bool :=
  decide (Scalar.abs (a - b) < ε)

namespace Binary64

/-- The remainder of the division that truncates its quotient, exact and with the sign of `x`. -/
def remainder (x y : Binary64) : Binary64 :=
  if x.isNaN then x.quiet
  else if y.isNaN then y.quiet
  else if x.isFinite = false ∨ y.rank = 0 then invalid
  else if y.isFinite = false then x
  else ofUnits x.isNegative (x.magnitude % y.magnitude)

/-- Extends a function that is one at either zero. -/
def liftOne (f : Float → Float) (x : Binary64) : Binary64 := if x.rank = 0 then 1 else lift f x

/-- Extends a function that keeps either zero. -/
def liftZero (f : Float → Float) (x : Binary64) : Binary64 := if x.rank = 0 then x else lift f x

def sqrt : Binary64 → Binary64 := lift Float.sqrt
def exp : Binary64 → Binary64 := liftOne Float.exp
def log : Binary64 → Binary64 := lift Float.log
def sin : Binary64 → Binary64 := liftZero Float.sin
def cos : Binary64 → Binary64 := liftOne Float.cos
def sinh : Binary64 → Binary64 := liftZero Float.sinh
def cosh : Binary64 → Binary64 := liftOne Float.cosh

/-- The angle of the point with ordinate `y` and abscissa `x`. -/
def atan2 (y x : Binary64) : Binary64 := lift₂ Float.atan2 y x

/-- The power of two with an exponent in the range of normal numbers. -/
def twoTo (e : Int) : Binary64 := ofRank false ((1023 + e).toNat * ranksPerScale)

/-- The length of a pair with `0 ≤ b ≤ a`, neither too great nor too small to be squared: the root
`h` of the rounded sum of squares, less the error of `h * h` over `2 h`. The error is taken through
the distance of `h` from the nearer of `a` and `b`, where little is lost. -/
def lengthOf (a b : Binary64) : Binary64 :=
  let h := (a * a + b * b).sqrt
  let error :=
    if h ≤ 2.0 * b then
      let d := h - b
      a * (2.0 * d - a) + (d - 2.0 * (a - b)) * d
    else
      let d := h - a
      2.0 * d * (a - 2.0 * b) + ((4.0 * d - b) * b + d * d)
  h - error / (2.0 * h)

/-- The Euclidean length of a pair; infinite as soon as one side is. Sides whose squares leave the
range of binary64 are scaled first, and a side that is too short to count is added. -/
def hypot (x y : Binary64) : Binary64 :=
  if x.rank = infinityRank ∨ y.rank = infinityRank then infinity
  else if x.isNaN then x.quiet
  else if y.isNaN then y.quiet
  else
    let a := if x.rank < y.rank then y.abs else x.abs
    let b := if x.rank < y.rank then x.abs else y.abs
    if twoTo 511 < a then
      if b ≤ a * twoTo (-54) then a + b
      else lengthOf (a * twoTo (-600)) (b * twoTo (-600)) / twoTo (-600)
    else if b < twoTo (-459) then
      if b / twoTo (-54) ≤ a then a + b
      else lengthOf (a / twoTo (-600)) (b / twoTo (-600)) * twoTo (-600)
    else if b ≤ a * twoTo (-54) then a + b
    else lengthOf a b

instance : Scalar Binary64 where
  abs := abs
  hypot := hypot
  power := lift₂ Float.pow
  isFinite := isFinite
  tolerance := 1e-9

def pi : Binary64 := 3.141592653589793
def euler : Binary64 := 2.718281828459045

end Binary64

end ZPlane
