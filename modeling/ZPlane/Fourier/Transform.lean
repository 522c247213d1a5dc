import ZPlane.Fourier.SineTable
import ZPlane.Fourier.BitReversal

/-!
# The fast Fourier transform

The transform has a positive exponent, so that its `k`th value is the polynomial with the given
coefficients at `e ^ (2 π i k / n)`. Decimation in frequency halves a block of `2 ^ (l + 2)` points
`l` times, down to blocks of four, and leaves the values in bit-reversed order. Every read of the
sine table is checked; `transform?` has a value for each size that `checkSize` accepts.
-/

namespace ZPlane

/-- Why a transform is refused. -/
inductive TransformError where
  | notPowerOfTwo (size : Nat)
  | tooLarge (size max : Nat)
  | lengthMismatch (real imag : Nat)
  | degreeTooHigh (degree size : Nat)
deriving DecidableEq

def TransformError.message : TransformError → String
  | .notPowerOfTwo size => "FFT size " ++ toString size ++ " is not a power of two"
  | .tooLarge size max => "FFT size " ++ toString size ++ " exceeds the maximum of " ++ toString max
  | .lengthMismatch real imag =>
    "real and imaginary buffers differ in length (" ++ toString real ++ " vs " ++
      toString imag ++ ")"
  | .degreeTooHigh degree size =>
    "polynomial degree " ++ toString degree ++ " needs more than " ++ toString size ++
      " frequency bins"

namespace Fourier

variable {α : Type} [Add α] [Sub α] [Mul α]

/-- The transform of four points, in bit-reversed order. -/
def quad (a b c d : Complex α) : List (Complex α) :=
  let s := a + c
  let t := b + d
  let u := a - c
  let v : Complex α := ⟨d.im - b.im, b.re - d.re⟩
  [s + t, s - t, u + v, u - v]

/-- The transform of `2 ^ (l + 2)` points, in bit-reversed order. -/
def decimate? (table : Array α) :
    (l : Nat) → (sin cos : View) → List (Complex α) → Option (List (Complex α))
  | 0, _, _, [a, b, c, d] => some (quad a b c d)
  | 0, _, _, _ => none
  | l + 1, sin, cos, xs => do
    let half := xs.length / 2
    let low := xs.take half
    let high := xs.drop half
    let ws ← twiddles? table sin cos half
    let evens ← decimate? table l (sin.every 2) (cos.every 2) (List.zipWith (· + ·) low high)
    let odds ← decimate? table l (sin.every 2) (cos.every 2)
      (List.zipWith (· * ·) (List.zipWith (· - ·) low high) ws)
    some (evens ++ odds)

/-- The transform of a power of two of points, in natural order. -/
def transform? (table : Array α) : List (Complex α) → Option (List (Complex α))
  | [] => some []
  | [a] => some [a]
  | [a, b] => some [a + b, a - b]
  | xs => do
    let n := xs.length
    let ys ← decimate? table (n.log2 - 2) (.sines n) (.cosines n) xs
    some (unscramble ys.toArray).toList

def isPowerOfTwo (n : Nat) : Bool := n ≠ 0 && 1 <<< n.log2 = n

/-- A size is a power of two that the table can serve. -/
def checkSize (size : Nat) : Except TransformError Unit :=
  if isPowerOfTwo size = false then .error (.notPowerOfTwo size)
  else if turn < size then .error (.tooLarge size turn)
  else .ok ()

/-- The transform of the points with the given parts. -/
def fft (table : Array α) (real imag : List α) : Except TransformError (List (Complex α)) :=
  if real.length ≠ imag.length then .error (.lengthMismatch real.length imag.length)
  else do
    checkSize real.length
    .ok ((transform? table (List.zipWith Complex.mk real imag)).getD [])

/-- The values of the polynomial with the given coefficients at the `size`th roots of unity. -/
def onCircle [Zero α] (table : Array α) (coeffs : List (Complex α)) (size : Nat) :
    Except TransformError (List (Complex α)) := do
  checkSize size
  if size < coeffs.length then .error (.degreeTooHigh (coeffs.length - 1) size)
  else
    let xs := coeffs ++ List.replicate (size - coeffs.length) 0
    .ok ((transform? table xs).getD [])

end Fourier

end ZPlane
