/-!
# Merging

Two ways to merge two lists that are in order. An element of the second list goes before one of
the first only if it is less, so elements that are not told apart keep their order. `less` need
not be a consistent order: which comparisons are made is fixed, and so is the result.
-/

namespace ZPlane

namespace Sorting

variable {α : Type}

/-- Merges from the front if the first list is no longer than the second, else from the back. -/
def merge (less : α → α → Bool) (left right : List α) : List α :=
  if left.length ≤ right.length then left.merge right fun a b ↦ !less b a
  else (right.reverse.merge left.reverse fun b a ↦ !less b a).reverse

/-- The first `n` elements of a merge from the front, and what is left of both lists. -/
def mergeFirst (less : α → α → Bool) : (n : Nat) → (left right : List α) →
    List α × List α × List α
  | n + 1, a :: left, b :: right =>
    if less b a then
      let (taken, left, right) := mergeFirst less n (a :: left) right
      (b :: taken, left, right)
    else
      let (taken, left, right) := mergeFirst less n left (b :: right)
      (a :: taken, left, right)
  | _, left, right => ([], left, right)

/-- Merges from both ends at once, for a second list of the length of the first or one more. Each
end takes as many elements as the first list has, and of an odd number the middle one is added at
last. None if the ends do not meet, which no consistent order leads to. -/
def mergeEnds? (less : α → α → Bool) (left right : List α) : Option (List α) :=
  let half := left.length
  let odd := right.length - half
  let (front, left', right') := mergeFirst less half left right
  let (back, _, left'') := mergeFirst (fun b a ↦ less a b) half right.reverse left.reverse
  let fromLeft := (half - left'.length) + (half - left''.length)
  if fromLeft = half then some (front ++ right'.take odd ++ back.reverse)
  else if fromLeft + odd = half then some (front ++ left'.take odd ++ back.reverse)
  else none

end Sorting

end ZPlane
