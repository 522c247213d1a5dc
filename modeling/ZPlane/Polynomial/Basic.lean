import ZPlane.Complex.Basic

/-!
# Polynomials

A polynomial is the list of its coefficients, the constant one first. The operations are those of
any coefficients with the arithmetic they name; each is done in a fixed order, so that on binary64
coefficients the rounding is determined too.
-/

namespace ZPlane

/-- A polynomial by its coefficients in ascending order. -/
structure Polynomial (κ : Type) where
  coeffs : List κ
deriving DecidableEq

namespace Polynomial

variable {κ : Type}

instance [One κ] : One (Polynomial κ) := ⟨⟨[1]⟩⟩

/-- The highest exponent that has a coefficient, zero for the empty list too. -/
def degree (p : Polynomial κ) : Nat := p.coeffs.length - 1

/-- The coefficients of `(x - r)` times the polynomial with the coefficients `as`, where `below` is
the coefficient before the first. -/
def timesLinear [Sub κ] [Mul κ] (r below : κ) : List κ → List κ
  | [] => [below]
  | a :: as => (below - r * a) :: timesLinear r a as

/-- The monic polynomial with the given roots. Roots that vanish add no factor: a root at the origin
shows only as a missing degree. -/
def ofRoots [Zero κ] [One κ] [Sub κ] [Mul κ] (vanishes : κ → Bool) (rs : List κ) : Polynomial κ :=
  ⟨(rs.filter fun r ↦ !vanishes r).foldl (fun as r ↦ timesLinear r 0 as) [1]⟩

/-- The value at `x`, by Horner's rule. -/
def eval [Zero κ] [Add κ] [Mul κ] (p : Polynomial κ) (x : κ) : κ :=
  p.coeffs.foldr (fun c acc ↦ acc * x + c) 0

/-- The values of a polynomial and of its first two derivatives. -/
structure Jet (κ : Type) where
  value : κ
  first : κ
  second : κ

/-- Adds to `s` the terms of the coefficients `cs` of `x ^ k`, `x ^ (k + 1)`, …, given the three
powers of `x` up to the `k`th. -/
def addTerms [Add κ] [Mul κ] [NatCast κ] (x : κ) :
    (k : Nat) → (cs : List κ) → (p₀ p₁ p₂ : κ) → (s : Jet κ) → Jet κ
  | _, [], _, _, _, s => s
  | k, c :: cs, p₀, p₁, p₂, s =>
    addTerms x (k + 1) cs (p₀ * x) p₀ p₁
      ⟨s.value + c * p₀, s.first + (k : κ) * c * p₁, s.second + ((k * (k - 1) : Nat) : κ) * c * p₂⟩

/-- Value and derivatives at `x`, summed over the powers of `x`. Powers below the constant one are
taken as zero; their coefficients in a derivative are zero too. -/
def jet [Zero κ] [One κ] [Add κ] [Mul κ] [NatCast κ] (p : Polynomial κ) (x : κ) : Jet κ :=
  addTerms x 0 p.coeffs 1 0 0 ⟨0, 0, 0⟩

/-- The quotient by `x - r`, dropping the remainder. The head of the quotient so far is the carry
into the next coefficient. -/
def deflate [Zero κ] [Add κ] [Mul κ] (p : Polynomial κ) (r : κ) : Polynomial κ :=
  ⟨p.coeffs.tail.foldr (fun c q ↦ (c + q.headD 0 * r) :: q) []⟩

/-- Without the vanishing coefficients at the top; nothing if all of them vanish. -/
def trim? (vanishes : κ → Bool) (p : Polynomial κ) : Option (Polynomial κ) :=
  match p.coeffs.reverse.dropWhile vanishes with
  | [] => none
  | top => some ⟨top.reverse⟩

/-- Halley's step from `x` towards a root, `x - 2 f f' / (2 f' f' - f f'')`. -/
def halleyStep [Zero κ] [One κ] [Add κ] [Sub κ] [Mul κ] [Div κ] [NatCast κ]
    (p : Polynomial κ) (x : κ) : κ :=
  let f := p.jet x
  let two : κ := (2 : Nat)
  x - two * f.value * f.first / (two * f.first * f.first - f.value * f.second)

end Polynomial

end ZPlane
