import ZPlane.Complex.Elementary
import ZPlane.Number.Text

/-!
# Complex numbers as text

Both forms write their numbers with a given count of places, and both are input of the calculator.
-/

namespace ZPlane

/-- The places written when none are asked for. -/
def defaultPlaces : Nat := 4

/-- `a + bi`, leaving out a part that is zero. -/
def Complex.render (p : Nat) (z : Complex Binary64) : String :=
  if z.isOrigin then "0"
  else if z.im.agrees 0 then z.re.fixed p
  else if z.re.agrees 0 then z.im.fixed p ++ "i"
  else
    z.re.fixed p ++ (if z.im < 0 then " - " else " + ") ++ z.im.abs.fixed p ++ "i"

/-- `m*e^(ti)`, leaving out a zero exponent or a unit modulus. -/
def Polar.render (p : Nat) (z : Polar) : String :=
  if closeTo z.argument 0 Scalar.tolerance then z.modulus.fixed p
  else
    let rotation := "e^(" ++ z.argument.fixed p ++ "i)"
    if closeTo z.modulus 1 Scalar.tolerance then rotation
    else z.modulus.fixed p ++ "*" ++ rotation

end ZPlane
