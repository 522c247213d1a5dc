import ZPlane.Parsing.Parser

/-!
# Operators

Each parser wraps an operand into the next looser level of precedence. The operator parsers yield
the operators, and `apply` combines them with the operands.
-/

namespace ZPlane

namespace Parsing

namespace Parser

variable {ρ : Type} {V : ρ → Type} {α Op : Type}

/-- Operators before an operand, the innermost applied first. -/
def prefixed (operand : Parser V α) (op : Parser V Op) (apply : Op → α → α) : Parser V α :=
  (op.many.both operand).map fun (ops, a) ↦ ops.foldr apply a

/-- Operators after an operand, applied from left to right. -/
def postfixed (operand : Parser V α) (op : Parser V Op) (apply : α → Op → α) : Parser V α :=
  (operand.both op.many).map fun (a, ops) ↦ ops.foldl apply a

/-- Operands with operators between them, combined from the left. -/
def chainLeft (operand : Parser V α) (op : Parser V Op) (apply : Op → α → α → α) : Parser V α :=
  (operand.both (op.both operand).many).map fun (a, rest) ↦
    rest.foldl (fun acc (o, b) ↦ apply o acc b) a

/-- One operand, or two with an operator between them. -/
def chainOnce (operand : Parser V α) (op : Parser V Op) (apply : Op → α → α → α) : Parser V α :=
  (operand.both (op.both operand).optional).map fun
    | (a, some (o, b)) => apply o a b
    | (a, none) => a

end Parser

end Parsing

end ZPlane
