import ZPlane.Complex.Basic

/-!
# Elementary functions of a complex variable

Logarithm, square root and powers go through the polar form with the principal argument; the
trigonometric functions through the real ones, and their inverses through the logarithm.
-/

namespace ZPlane

/-- A complex number by its modulus and argument. -/
structure Polar where
  modulus : Binary64
  argument : Binary64
deriving DecidableEq

def Polar.toComplex (p : Polar) : Complex Binary64 :=
  ⟨p.modulus * p.argument.cos, p.modulus * p.argument.sin⟩

namespace Complex

/-- The principal argument. Adding zero first makes a negative zero a positive one, so that a
negated real has the argument `π`. -/
def arg (z : Complex Binary64) : Binary64 := (z.im + 0).atan2 z.re

def toPolar (z : Complex Binary64) : Polar := ⟨z.norm, z.arg⟩

def exp (z : Complex Binary64) : Complex Binary64 :=
  let r := z.re.exp
  ⟨r * z.im.cos, r * z.im.sin⟩

def log (z : Complex Binary64) : Complex Binary64 := ⟨z.norm.log, z.arg⟩

def sqrt (z : Complex Binary64) : Complex Binary64 :=
  Polar.toComplex ⟨z.norm.sqrt, z.arg / 2.0⟩

/-- `exp (w * log z)`, and zero for a zero base under an exponent with positive real part. -/
def pow (z w : Complex Binary64) : Complex Binary64 :=
  if z.isOrigin ∧ 0 < w.re then 0
  else
    let l := z.log
    exp ⟨l.re * w.re - l.im * w.im, l.re * w.im + l.im * w.re⟩

/-- Subtracts from `z` as many `w` as the remainder of the real parts, or of the imaginary parts
where `w` has no real one. The factor is a remainder and not a quotient: `7 % 3` is `4`. -/
def remainder (z w : Complex Binary64) : Complex Binary64 :=
  let m := if w.re.agrees 0 then z.im.remainder w.im else z.re.remainder w.re
  ⟨z.re - m * w.re, z.im - m * w.im⟩

def sin (z : Complex Binary64) : Complex Binary64 :=
  ⟨z.re.sin * z.im.cosh, z.re.cos * z.im.sinh⟩

def cos (z : Complex Binary64) : Complex Binary64 :=
  ⟨z.re.cos * z.im.cosh, -z.re.sin * z.im.sinh⟩

def tan (z : Complex Binary64) : Complex Binary64 :=
  let d := (2.0 * z.re).cos + (2.0 * z.im).cosh
  ⟨(2.0 * z.re).sin / d, (2.0 * z.im).sinh / d⟩

/-- `-i log (i z + sqrt (1 - z²))` -/
def asin (z : Complex Binary64) : Complex Binary64 :=
  let l := (i * z + (1 - z * z).sqrt).log
  ⟨l.im, -l.re⟩

/-- `-i log (z + i sqrt (1 - z²))` -/
def acos (z : Complex Binary64) : Complex Binary64 :=
  let l := (z + i * (1 - z * z).sqrt).log
  ⟨l.im, -l.re⟩

/-- `i/2 log ((i + z) / (i - z))` -/
def atan (z : Complex Binary64) : Complex Binary64 :=
  let l := ((i + z) / (i - z)).log
  ⟨-l.im / 2.0, l.re / 2.0⟩

end Complex

end ZPlane
