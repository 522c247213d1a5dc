import ZPlane.Number.Scalar

/-!
# Complex numbers

Pairs of scalars with the arithmetic of the complex plane, written out so that every operation is
done in a fixed order. The order and the equality used for display are tolerant: parts that differ
by less than a tolerance count as equal.
-/

namespace ZPlane

/-- A complex number by its real and imaginary parts. -/
structure Complex (α : Type) where
  re : α
  im : α
deriving DecidableEq

namespace Complex

variable {α : Type}

instance [Zero α] : Zero (Complex α) := ⟨⟨0, 0⟩⟩
instance [Zero α] [One α] : One (Complex α) := ⟨⟨1, 0⟩⟩
instance [Zero α] [NatCast α] : NatCast (Complex α) := ⟨fun n ↦ ⟨n, 0⟩⟩
instance [Zero α] : Inhabited (Complex α) := ⟨0⟩

/-- The imaginary unit. -/
def i [Zero α] [One α] : Complex α := ⟨0, 1⟩

def ofReal [Zero α] (x : α) : Complex α := ⟨x, 0⟩

instance [Add α] : Add (Complex α) := ⟨fun z w ↦ ⟨z.re + w.re, z.im + w.im⟩⟩
instance [Sub α] : Sub (Complex α) := ⟨fun z w ↦ ⟨z.re - w.re, z.im - w.im⟩⟩
instance [Neg α] : Neg (Complex α) := ⟨fun z ↦ ⟨-z.re, -z.im⟩⟩

instance [Add α] [Sub α] [Mul α] : Mul (Complex α) :=
  ⟨fun z w ↦ ⟨z.re * w.re - z.im * w.im, z.re * w.im + z.im * w.re⟩⟩

/-- Division by the squared modulus; a zero divisor gives what the scalars' division gives. -/
instance [Add α] [Sub α] [Mul α] [Div α] : Div (Complex α) :=
  ⟨fun z w ↦
    let d := w.re * w.re + w.im * w.im
    ⟨(z.re * w.re + z.im * w.im) / d, (z.im * w.re - z.re * w.im) / d⟩⟩

def conj [Neg α] (z : Complex α) : Complex α := ⟨z.re, -z.im⟩

/-- The modulus. -/
def norm [Scalar α] (z : Complex α) : α := Scalar.hypot z.re z.im

def isFinite [Scalar α] (z : Complex α) : Bool := Scalar.isFinite z.re && Scalar.isFinite z.im

/-- Both parts are numerically zero. -/
def isOrigin [Zero α] [LE α] [DecidableLE α] (z : Complex α) : Bool :=
  decide (z.re ≤ 0) && decide (0 ≤ z.re) && (decide (z.im ≤ 0) && decide (0 ≤ z.im))

/-! ### Tolerant comparison -/

variable [Zero α] [Sub α] [Neg α] [LT α] [DecidableLT α] [LE α] [DecidableLE α] [Scalar α]

/-- Both parts are closer to zero than `ε`. -/
def isZeroWithin (ε : α) (z : Complex α) : Bool := closeTo z.re 0 ε && closeTo z.im 0 ε

def isZero (z : Complex α) : Bool := z.isZeroWithin Scalar.tolerance

def approxWithin (ε : α) (z w : Complex α) : Bool := (z - w).isZeroWithin ε

def approx (z w : Complex α) : Bool := approxWithin Scalar.tolerance z w

/-- The sign of a difference, where less than `ε` on either side is none. -/
def signWithin (ε d : α) : Ordering := if d ≤ -ε then .lt else if ε ≤ d then .gt else .eq

/-- Orders by real part and then by imaginary part, with tolerance `ε` in each. -/
def compareWithin (ε : α) (z w : Complex α) : Ordering :=
  (signWithin ε (z.re - w.re)).then (signWithin ε (z.im - w.im))

def compare (z w : Complex α) : Ordering := compareWithin Scalar.tolerance z w

/-- A root as it stands for itself and its conjugate: twice, unless it is real within tolerance. -/
def conjugates (z : Complex α) : List (Complex α) :=
  if closeTo z.im 0 Scalar.tolerance then [z] else [z, z.conj]

end Complex

end ZPlane
