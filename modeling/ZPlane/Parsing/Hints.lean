/-!
# Hints

A hint says what was expected at an offset, or, without a label, that something failed there. Hints
are kept as a tree, so that joining two is one node; each join remembers the furthest offset below
it, and a search for an offset skips the trees that do not reach it.
-/

namespace ZPlane

namespace Parsing

/-- What the branches of a parse expected, from left to right. -/
inductive Hints where
  | empty
  | leaf (offset : Nat) (label : Option String)
  /-- `furthest` is the greatest offset of the two sides. -/
  | node (furthest : Nat) (left right : Hints)

namespace Hints

/-- A label expected at an offset. -/
def expected (offset : Nat) (label : String) : Hints := .leaf offset (some label)

/-- A failure at an offset without a label. -/
def mark (offset : Nat) : Hints := .leaf offset none

def isEmpty : Hints → Bool
  | empty => true
  | _ => false

/-- The greatest offset of any hint. -/
def furthest? : Hints → Option Nat
  | empty => none
  | leaf offset _ => some offset
  | node furthest _ _ => some furthest

/-- All hints of the first and then all of the second. -/
def join (a b : Hints) : Hints :=
  match a.furthest?, b.furthest? with
  | none, _ => b
  | _, none => a
  | some m, some n => .node (max m n) a b

/-- The hints that reach further; both if they reach equally far. -/
def deepest (a b : Hints) : Hints :=
  match a.furthest?, b.furthest? with
  | some m, some n => if n < m then a else if m < n then b else a.join b
  | _, _ => a.join b

/-- The hints in the trees that reach `offset`, from left to right, in front of `after`. -/
def reaching (offset : Nat) : Hints → (after : List (Nat × Option String)) →
    List (Nat × Option String)
  | empty, after => after
  | leaf n label, after => if n < offset then after else (n, label) :: after
  | node furthest l r, after =>
    if furthest < offset then after else reaching offset l (reaching offset r after)

/-- All hints from left to right. -/
def toList (h : Hints) : List (Nat × Option String) := h.reaching 0 []

/-- The distinct labels at exactly `offset`, in the order of their first hints. -/
def labelsAt (offset : Nat) (h : Hints) : List String :=
  ((h.reaching offset []).filterMap fun (n, label) ↦ if n = offset then label else none).eraseDups

end Hints

end Parsing

end ZPlane
