import ZPlane.Calculator.Expr
import ZPlane.Parsing.Lexeme
import ZPlane.Parsing.Operators

/-!
# The grammar of the calculator

From the tightest level to the loosest: terms side by side, signs, `^`, then `*`, `/` and `%`, then
`+` and `-`. All but the signs group to the left. A term is a number, a constant, a function with
its arguments, or an expression in parentheses.
-/

namespace ZPlane

namespace Calculator

open Parsing

section Levels

variable {ρ : Type} {V : ρ → Type}

/-- A known name, reported as `what` where there is none. -/
def named {α : Type} (what : String) (ofName? : String → Option α) : Parser V α :=
  ((Parser.identifier.filterMap ofName?).label what).lexeme

/-- One of a few operator characters, as the function it stands for. -/
def sign {α : Type} (what : String) (chars text : String) (ofName? : String → Option α) :
    Parser V α :=
  (((Parser.pattern text (oneOfLength? chars)).filterMap ofName?).label what).lexeme

/-- A term, where `inner` parses what is inside parentheses. -/
def term (inner : Parser V Expr) : Parser V Expr :=
  let opening : Parser V String := .symbol "("
  let closing : Parser V String := .symbol ")"
  .choice (Parser.number.lexeme.map .number)
    [(named "constant" Constant.ofName?).map .constant,
      ((((named "function" UnaryFn.ofName?).first opening).both inner).first closing).map
        fun (f, a) ↦ .call f a,
      ((((((named "function" BinaryFn.ofName?).first opening).both inner).first
        (.symbol ",")).both inner).first closing).map fun ((f, a), b) ↦ .call₂ f a b,
      (opening.second inner).first closing]

def operator (chars text : String) : Parser V BinaryFn :=
  sign "operator" chars text BinaryFn.ofName?

/-- The five levels over `inner`. -/
def levels (inner : Parser V Expr) : Parser V Expr :=
  let juxtaposed := (term inner).postfixed (term inner) .juxtaposed
  let signed := juxtaposed.prefixed (sign "sign" "+-" "[+-]" UnaryFn.ofName?) .signed
  let power := signed.chainLeft (operator "^" "\\^") .operated
  let product := power.chainLeft (operator "*/%" "[*/%]") .operated
  product.chainLeft (operator "+-" "[+-]") .operated

end Levels

/-- The one rule of the calculator. -/
inductive Rule where
  | expression

/-- Expressions, which may hold expressions in parentheses. -/
def expression : Parser (fun _ : Rule ↦ Expr) Expr := levels (.rule .expression)

def grammar : Grammar fun _ : Rule ↦ Expr := fun _ ↦ expression

/-- An expression with blanks before it. -/
def calculation : Parser (fun _ : Rule ↦ Expr) Expr := Parser.blanks.second (.rule .expression)

/-- The depth of rule calls that suffices for a text: each call inside another is further on. -/
def depthFor (cs : List Char) : Nat := Text.byteLength cs + 1

/-- Parses a whole text by a parser over the calculator's grammar. -/
def parseWith {α : Type} (p : Parser (fun _ : Rule ↦ Expr) α) (cs : List Char) :
    Except ParseError α :=
  match grammar.parse (depthFor cs) p cs with
  | .ok a => .ok a
  | .error (.unexpected e) => .error e
  | .error .overrun => .error ⟨0, []⟩

/-- The expression that a text says. -/
def parse (text : String) : Except ParseError Expr := parseWith calculation text.toList

/-- The value of the expression that a text says. -/
def calculate (text : String) : Except ParseError (Complex Binary64) :=
  (parse text).map Expr.value

end Calculator

end ZPlane
