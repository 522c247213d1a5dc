import ZPlane.Complex.Elementary

/-!
# Functions and constants of the calculator
-/

namespace ZPlane

namespace Calculator

/-- Functions of one argument; `identity` and `negate` are the signs. -/
inductive UnaryFn where
  | identity | negate | abs | angle | conj | real | imag
  | sin | cos | tan | asin | acos | atan | ln | exp | sqrt
deriving DecidableEq

namespace UnaryFn

def all : List UnaryFn :=
  [identity, negate, abs, angle, conj, real, imag, sin, cos, tan, asin, acos, atan, ln, exp, sqrt]

def name : UnaryFn → String
  | identity => "+"
  | negate => "-"
  | abs => "abs"
  | angle => "angle"
  | conj => "conj"
  | real => "real"
  | imag => "imag"
  | sin => "sin"
  | cos => "cos"
  | tan => "tan"
  | asin => "asin"
  | acos => "acos"
  | atan => "atan"
  | ln => "ln"
  | exp => "exp"
  | sqrt => "sqrt"

def ofName? (s : String) : Option UnaryFn := all.find? fun f ↦ f.name = s

def apply : UnaryFn → Complex Binary64 → Complex Binary64
  | identity, z => z
  | negate, z => -z
  | abs, z => .ofReal z.norm
  | angle, z => .ofReal z.arg
  | conj, z => z.conj
  | real, z => .ofReal z.re
  | imag, z => .ofReal z.im
  | sin, z => z.sin
  | cos, z => z.cos
  | tan, z => z.tan
  | asin, z => z.asin
  | acos, z => z.acos
  | atan, z => z.atan
  | ln, z => z.log
  | exp, z => z.exp
  | sqrt, z => z.sqrt

end UnaryFn

/-- Functions of two arguments, which are operators too. -/
inductive BinaryFn where
  | add | sub | mul | div | mod | pow
deriving DecidableEq

namespace BinaryFn

def all : List BinaryFn := [add, sub, mul, div, mod, pow]

def name : BinaryFn → String
  | add => "add"
  | sub => "sub"
  | mul => "mul"
  | div => "div"
  | mod => "mod"
  | pow => "pow"

def symbol : BinaryFn → String
  | add => "+"
  | sub => "-"
  | mul => "*"
  | div => "/"
  | mod => "%"
  | pow => "^"

/-- By name or by symbol; the empty text is the symbol of juxtaposition. -/
def ofName? (s : String) : Option BinaryFn :=
  if s = "" then some mul else all.find? fun f ↦ f.name = s || f.symbol = s

def apply : BinaryFn → Complex Binary64 → Complex Binary64 → Complex Binary64
  | add, z, w => z + w
  | sub, z, w => z - w
  | mul, z, w => z * w
  | div, z, w => z / w
  | mod, z, w => z.remainder w
  | pow, z, w => z.pow w

end BinaryFn

/-- Named constants. -/
inductive Constant where
  | i | j | e | pi
deriving DecidableEq

namespace Constant

def all : List Constant := [i, j, e, pi]

def name : Constant → String
  | i => "i"
  | j => "j"
  | e => "e"
  | pi => "pi"

def ofName? (s : String) : Option Constant := all.find? fun c ↦ c.name = s

def value : Constant → Complex Binary64
  | i => .i
  | j => .i
  | e => .ofReal .euler
  | pi => .ofReal .pi

end Constant

end Calculator

end ZPlane
