import ZPlane.Sorting.Partition

/-!
# Stable sorting

`sort?` puts a list in ascending order, with elements that are not told apart in the order in
which they came. The list of a consistent order is always found. For other comparisons the result
is still determined, as all comparisons are made in a fixed order, and there is none if a merge
from both ends comes upon a contradiction.
-/

namespace ZPlane

namespace Sorting

variable {α : Type}

/-- Up to this number elements are sorted by insertion. -/
def insertionLength : Nat := 20

def sort? (less : α → α → Bool) (xs : List α) : Option (List α) :=
  let n := xs.length
  if n ≤ insertionLength then some (insertAll less [] xs)
  else
    arrange? less (n ≤ 2 * shortLength) (fun ys ↦ quick? less (2 * ys.length.log2) none ys) xs

end Sorting

end ZPlane
