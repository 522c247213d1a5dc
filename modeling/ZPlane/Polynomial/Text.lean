import ZPlane.Polynomial.Basic
import ZPlane.Complex.Text

/-!
# Polynomials as text
-/

namespace ZPlane

namespace Polynomial

/-- The power of `x` after a coefficient. -/
def powerText : Nat → String
  | 0 => ""
  | 1 => " x"
  | k + 2 => " x^" ++ toString (k + 2)

/-- `(c) x^2 + (c) x + (c)`, the highest power first. -/
def render (p : Nat) (f : Polynomial (Complex Binary64)) : String :=
  " + ".intercalate
    (f.coeffs.mapIdx fun k c ↦ "(" ++ c.render p ++ ")" ++ powerText k).reverse

end Polynomial

end ZPlane
