import ZPlane.Fourier.Transform
import ZPlane.Polynomial.Basic

/-!
# Magnitude responses

The response of a filter at a point of the unit circle is the gain times the ratio of two
polynomials there, one monic with the zeros as roots and one with the poles. Both are evaluated at
all points by one transform each.
-/

namespace ZPlane

/-- Magnitudes from zero frequency to the Nyquist frequency, with the frequency axis. -/
structure Response (α : Type) where
  magnitudes : List α
  frequencies : List α
deriving DecidableEq

namespace Response

variable {α : Type} [Zero α]

/-- The largest finite magnitude, or zero; of equal ones the last. -/
def peak [LE α] [DecidableLE α] [Scalar α] (r : Response α) : α :=
  (r.magnitudes.filter Scalar.isFinite).foldl (fun top m ↦ if top ≤ m then m else top) 0

/-- Frequencies with their magnitudes. -/
def points (r : Response α) : List (α × α) := r.frequencies.zip r.magnitudes

variable [One α] [Add α] [Sub α] [Mul α] [Div α] [Neg α] [NatCast α]
  [LT α] [DecidableLT α] [LE α] [DecidableLE α] [Scalar α]

/-- The monic polynomial with the given roots and their conjugates. -/
def characteristic (roots : List (Complex α)) : Polynomial (Complex α) :=
  .ofRoots Complex.isZero (roots.flatMap Complex.conjugates)

/-- `half + 1` frequencies from zero to `nyquist`. -/
def axis (half : Nat) (nyquist : α) : List α :=
  (List.range (half + 1)).map fun k : Nat ↦ if half = 0 then 0 else nyquist * (k : α) / (half : α)

/-- The response over `size` points of the circle, of which the upper half is kept. -/
def ofRoots (table : Array α) (zeros poles : List (Complex α)) (gain : Complex α) (size : Nat)
    (nyquist : α) : Except TransformError (Response α) := do
  let above ← Fourier.onCircle table (characteristic zeros).coeffs size
  let below ← Fourier.onCircle table (characteristic poles).coeffs size
  let scale := gain.norm
  let half := size / 2
  let magnitudes :=
    List.zipWith (fun a b ↦ scale * a.norm / b.norm) (above.take (half + 1)) below
  .ok ⟨magnitudes, axis half nyquist⟩

end Response

end ZPlane
