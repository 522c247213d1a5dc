import ZPlane.Sorting.Run

/-!
# Sorting by partition

A list is split at a pivot, and both parts are sorted in the same way down to short ones. The
pivot is a median of medians of a few elements. After too many splits the rest is sorted by runs.
-/

namespace ZPlane

namespace Sorting

variable {α : Type}

/-- The median of three indices under a comparison of indices. -/
def median (less : Nat → Nat → Bool) (a b c : Nat) : Nat :=
  if less a b = less a c then if less b c = less a b then b else c else a

/-- The index of a representative of the `n` elements from `start` on. -/
def representative (less : Nat → Nat → Bool) (n start : Nat) : Nat :=
  let m := n / 8
  let a := start
  let b := start + 4 * m
  let c := start + 7 * m
  if n < 64 then median less a b c
  else
    median less (representative less m a) (representative less m b) (representative less m c)
termination_by n
decreasing_by all_goals omega

/-- The comparison of elements by their indices. -/
def lessAt (less : α → α → Bool) (xs : List α) (i j : Nat) : Bool :=
  match xs[i]?, xs[j]? with
  | some a, some b => less a b
  | _, _ => false

/-- The elements that go to the left and those that go to the right, the `k`th of them where
`goesLeft` says and the others by `p`. -/
def splitAround (p : α → Bool) (goesLeft : Bool) (k : Nat) (xs : List α) : List α × List α :=
  let (left, right) := xs.zipIdx.partition fun (x, i) ↦ if i = k then goesLeft else p x
  (left.map Prod.fst, right.map Prod.fst)

/-- A list in order after at most `limit` splits in a row. No element is less than `bound`; if the
pivot is not greater, the elements that are not greater than it are in their place. -/
def quick? (less : α → α → Bool) : (limit : Nat) → (bound : Option α) → List α → Option (List α)
  | limit, bound, xs =>
    if xs.length ≤ shortLength then short? less xs
    else
      match limit with
      | 0 => arrange? less true some xs
      | limit + 1 =>
        let k := representative (lessAt less xs) xs.length 0
        match xs[k]? with
        | none => none
        | some pivot =>
          let (left, right) := splitAround (fun x ↦ less x pivot) false k xs
          if left.isEmpty || bound.any (fun b ↦ !less b pivot) then do
            let (left, right) := splitAround (fun x ↦ !less pivot x) true k xs
            let right ← quick? less limit none right
            some (left ++ right)
          else do
            let right ← quick? less limit (some pivot) right
            let left ← quick? less limit bound left
            some (left ++ right)

end Sorting

end ZPlane
