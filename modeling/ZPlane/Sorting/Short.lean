import ZPlane.Sorting.Merge

/-!
# Sorting short lists

By insertion, or in two halves, each begun with a few elements put in order by a fixed network and
extended by insertion, which are then merged from both ends.
-/

namespace ZPlane

namespace Sorting

variable {α : Type}

/-- Puts an element into a list in descending order, before those it is not less than. -/
def insertDown (less : α → α → Bool) (x : α) : List α → List α
  | [] => [x]
  | y :: ys => if less x y then y :: insertDown less x ys else x :: y :: ys

/-- A list in order with further elements inserted from its end. -/
def insertAll (less : α → α → Bool) (sorted xs : List α) : List α :=
  (xs.foldl (fun ys x ↦ insertDown less x ys) sorted.reverse).reverse

def pair (less : α → α → Bool) (a b : α) : List α := if less b a then [b, a] else [a, b]

/-- Four elements in order, by five comparisons. -/
def four (less : α → α → Bool) (a b c d : α) : List α :=
  let (a, b) := if less b a then (b, a) else (a, b)
  let (c, d) := if less d c then (d, c) else (c, d)
  match less c a, less d b with
  | false, false => a :: pair less b c ++ [d]
  | false, true => a :: pair less c d ++ [b]
  | true, false => c :: pair less a b ++ [d]
  | true, true => c :: pair less a d ++ [b]

/-- Half of `n` elements: the first eight of them, four of them or one are put in order, and the
others are inserted. -/
def half? (less : α → α → Bool) (n : Nat) : List α → Option (List α)
  | a :: b :: c :: d :: e :: f :: g :: h :: xs =>
    if 16 ≤ n then
      (mergeEnds? less (four less a b c d) (four less e f g h)).map fun ys ↦ insertAll less ys xs
    else some (insertAll less (four less a b c d) (e :: f :: g :: h :: xs))
  | a :: b :: c :: d :: xs =>
    if 8 ≤ n then some (insertAll less (four less a b c d) xs)
    else some (insertAll less [a] (b :: c :: d :: xs))
  | xs => some (insertAll less [] xs)

/-- The number of elements that count as few. -/
def shortLength : Nat := 32

/-- Few elements in order. -/
def short? (less : α → α → Bool) (xs : List α) : Option (List α) :=
  let n := xs.length
  if n < 2 then some xs
  else do
    let left ← half? less n (xs.take (n / 2))
    let right ← half? less n (xs.drop (n / 2))
    mergeEnds? less left right

end Sorting

end ZPlane
