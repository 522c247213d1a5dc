/-!
# Binary64 numbers

A binary64 number is its 64 bits. Core's `Float` has a single NaN, while a stored value may be any
of the 2^53 - 2 of them, so the bits are kept here and `Float` is used for the arithmetic alone.
Finite values are read as `significand * 2 ^ scale` in units of `2 ^ -1074`, the smallest positive
value, so that exact comparisons are comparisons of naturals.
-/

namespace ZPlane

/-- An IEEE 754 binary64 number, given by its bits. -/
structure Binary64 where
  bits : UInt64
deriving DecidableEq

namespace Binary64

/-- The sign bit is set. -/
def isNegative (x : Binary64) : Bool := x.bits >>> 63 == 1

/-- The bits below the sign, which are ordered as the absolute values they stand for. -/
def rank (x : Binary64) : Nat := (x.bits &&& 0x7FFFFFFFFFFFFFFF).toNat

/-- The rank of infinity; smaller ranks are finite and greater ones are NaNs. -/
def infinityRank : Nat := 0x7FF0000000000000

@[inline] def isNaN (x : Binary64) : Bool :=
  decide (0x7FF0000000000000 < x.bits &&& 0x7FFFFFFFFFFFFFFF)

theorem isNaN_eq_decide_rank (x : Binary64) : x.isNaN = decide (infinityRank < x.rank) := by
  simp [isNaN, rank, infinityRank, UInt64.lt_iff_toNat_lt]

@[inline] def isFinite (x : Binary64) : Bool :=
  decide (x.bits &&& 0x7FFFFFFFFFFFFFFF < 0x7FF0000000000000)

theorem isFinite_eq_decide_rank (x : Binary64) : x.isFinite = decide (x.rank < infinityRank) := by
  simp [isFinite, rank, infinityRank, UInt64.lt_iff_toNat_lt]

/-- The number with the given sign and rank. -/
def ofRank (negative : Bool) (rank : Nat) : Binary64 :=
  ⟨(if negative then 0x8000000000000000 else 0) ||| rank.toUInt64⟩

/-- The ranks from one power of two to the next: `2 ^ 52`. -/
def ranksPerScale : Nat := 0x10000000000000

/-- The integer `m` of a finite value `m * 2 ^ scale`, in units of `2 ^ -1074`. -/
def significand (x : Binary64) : Nat :=
  if x.rank < ranksPerScale then x.rank else ranksPerScale + x.rank % ranksPerScale

/-- The exponent `e` of a finite value `significand * 2 ^ e`, in units of `2 ^ -1074`. -/
def scale (x : Binary64) : Nat := x.rank / ranksPerScale - 1

/-- The absolute value of a finite number, in units of `2 ^ -1074`. -/
def magnitude (x : Binary64) : Nat := x.significand <<< x.scale

/-- A positive quiet NaN, the one that is written as a literal. -/
def nan : Binary64 := ⟨0x7FF8000000000000⟩

/-- The NaN of an invalid operation on numbers: quiet and negative. -/
def invalid : Binary64 := ⟨0xFFF8000000000000⟩

def infinity : Binary64 := ofRank false infinityRank

/-- A NaN with its quiet bit set. -/
@[inline] def quiet (x : Binary64) : Binary64 := ⟨x.bits ||| 0x0008000000000000⟩

/-! ### Arithmetic -/

@[inline] def toFloat (x : Binary64) : Float := Float.ofBits x.bits

/-- The number a `Float` stands for, where a NaN is the outcome of an invalid operation. -/
@[inline] def ofFloat (x : Float) : Binary64 := if x.isNaN then invalid else ⟨x.toBits⟩

/-- Extends a function of `Float`s to every NaN: a NaN argument is the result, made quiet. -/
@[inline] def lift (f : Float → Float) (x : Binary64) : Binary64 :=
  if x.isNaN then x.quiet else ofFloat (f x.toFloat)

/-- As `lift`, for two arguments; of two NaNs the first is the result. -/
@[inline] def lift₂ (f : Float → Float → Float) (x y : Binary64) : Binary64 :=
  if x.isNaN then x.quiet
  else if y.isNaN then y.quiet
  else ofFloat (f x.toFloat y.toFloat)

instance : Add Binary64 := ⟨lift₂ (· + ·)⟩
instance : Sub Binary64 := ⟨lift₂ (· - ·)⟩
instance : Mul Binary64 := ⟨lift₂ (· * ·)⟩
instance : Div Binary64 := ⟨lift₂ (· / ·)⟩

/-- Negation flips the sign bit, that of a NaN too. -/
instance : Neg Binary64 := ⟨fun x ↦ ⟨x.bits ^^^ 0x8000000000000000⟩⟩

/-- Clears the sign bit, that of a NaN too. -/
def abs (x : Binary64) : Binary64 := ⟨x.bits &&& 0x7FFFFFFFFFFFFFFF⟩

instance : Zero Binary64 := ⟨⟨0⟩⟩
instance : One Binary64 := ⟨⟨0x3FF0000000000000⟩⟩
instance : Inhabited Binary64 := ⟨0⟩

/-! ### Order -/

/-- The position on the number line; both zeros stand at `0`. -/
def position (x : Binary64) : Int := if x.isNegative then -(x.rank : Int) else x.rank

/-- Numbers are ordered by position, and a NaN is below nothing. -/
instance : LT Binary64 := ⟨fun x y ↦ x.isNaN = false ∧ y.isNaN = false ∧ x.position < y.position⟩
instance : LE Binary64 := ⟨fun x y ↦ x.isNaN = false ∧ y.isNaN = false ∧ x.position ≤ y.position⟩

instance : DecidableLT Binary64 := fun x y ↦
  inferInstanceAs (Decidable (x.isNaN = false ∧ y.isNaN = false ∧ x.position < y.position))
instance : DecidableLE Binary64 := fun x y ↦
  inferInstanceAs (Decidable (x.isNaN = false ∧ y.isNaN = false ∧ x.position ≤ y.position))

/-- Numerical equality: both zeros are equal and a NaN equals nothing. -/
def agrees (x y : Binary64) : Bool := decide (x ≤ y) && decide (y ≤ x)

end Binary64

end ZPlane
