import ZPlane.Calculator.Function

/-!
# Expressions

What a text of the calculator says, one constructor for each way of writing.
-/

namespace ZPlane

namespace Calculator

/-- An expression of the calculator. -/
inductive Expr where
  | number (x : Binary64)
  | constant (c : Constant)
  /-- A function by name, with its arguments in parentheses. -/
  | call (f : UnaryFn) (a : Expr)
  | call₂ (f : BinaryFn) (a b : Expr)
  /-- Two terms side by side, a product. -/
  | juxtaposed (a b : Expr)
  | signed (f : UnaryFn) (a : Expr)
  /-- An operator between its operands. -/
  | operated (f : BinaryFn) (a b : Expr)
deriving DecidableEq

/-- The value of an expression. -/
def Expr.value : Expr → Complex Binary64
  | number x => .ofReal x
  | constant c => c.value
  | call f a | signed f a => f.apply a.value
  | call₂ f a b | operated f a b => f.apply a.value b.value
  | juxtaposed a b => BinaryFn.mul.apply a.value b.value

end Calculator

end ZPlane
