import ZPlane.Sorting.Short

/-!
# Sorting by runs

A list is cut into runs, and neighbouring runs are merged in the order of a balanced binary tree
over the list. A run is a long stretch that is in order already; where there is none, it is a
short stretch put in order at once, or one that is left as it is until it has to be merged.
-/

namespace ZPlane

namespace Sorting

variable {α : Type}

/-- Neighbouring elements of a list. -/
structure Run (α : Type) where
  items : List α
  /-- They are in order. -/
  sorted : Bool

/-- What follows `a` as long as each element is a `step` from the one before, and the rest. -/
def stretch (step : α → α → Bool) : (a : α) → List α → List α × List α
  | _, [] => ([], [])
  | a, b :: bs =>
    if step a b then
      let (run, rest) := stretch step b bs
      (b :: run, rest)
    else ([], b :: bs)

/-- The elements up to the first that is out of order, and the rest. Elements that descend are
turned around. -/
def naturalRun (less : α → α → Bool) : List α → List α × List α
  | a :: b :: bs =>
    if less b a then
      let (run, rest) := stretch (fun x y ↦ less y x) a (b :: bs)
      ((a :: run).reverse, rest)
    else
      let (run, rest) := stretch (fun x y ↦ !less y x) a (b :: bs)
      (a :: run, rest)
  | xs => (xs, [])

/-- The first run and the rest of the list. -/
def firstRun? (less : α → α → Bool) (eager : Bool) (long : Nat) (xs : List α) :
    Option (Run α × List α) :=
  let (run, rest) := naturalRun less xs
  if long ≤ run.length then some (⟨run, true⟩, rest)
  else if eager then
    (short? less (xs.take shortLength)).map fun run ↦ (⟨run, true⟩, xs.drop shortLength)
  else some (⟨xs.take long, false⟩, xs.drop long)

/-- All runs. No run is empty, so the length of the list bounds their number. -/
def runs? (less : α → α → Bool) (eager : Bool) (long : Nat) :
    (fuel : Nat) → List α → Option (List (Run α))
  | _, [] => some []
  | 0, xs => some [⟨xs, false⟩]
  | fuel + 1, xs => do
    let (run, rest) ← firstRun? less eager long xs
    let runs ← runs? less eager long fuel rest
    some (run :: runs)

/-- The length from which a stretch in order makes a run, in a list of `n` elements: half of them,
or 64, or about the root of `n`. -/
def longLength (n : Nat) : Nat :=
  if n ≤ 4096 then min (n - n / 2) 64
  else
    let s := (n.log2 + 1) / 2
    ((1 <<< s) + (n >>> s)) / 2

/-- How deep in the tree over `n` elements two neighbouring runs meet: one more than the number of
binary digits after the point that the middles of the runs share, as fractions of the list. -/
def depth (n left mid right : Nat) : Nat :=
  let unit := (0x4000000000000000 + n - 1) / n
  let difference := (unit * (left + mid)) ^^^ (unit * (mid + right))
  if difference = 0 then 64 else 63 - difference.log2

/-- The elements of a run in order, where `finish` sorts. -/
def Run.inOrder? (finish : List α → Option (List α)) (run : Run α) : Option (List α) :=
  if run.sorted then some run.items else finish run.items

/-- Two neighbouring runs as one. They are merged unless neither is in order. -/
def join? (less : α → α → Bool) (finish : List α → Option (List α)) (left right : Run α) :
    Option (Run α) :=
  if left.sorted || right.sorted then do
    let xs ← left.inOrder? finish
    let ys ← right.inOrder? finish
    some ⟨merge less xs ys, true⟩
  else some ⟨left.items ++ right.items, false⟩

/-- Joins a run to those before it that meet it at the given depth or deeper, the nearest first. -/
def joinDeeper? (less : α → α → Bool) (finish : List α → Option (List α)) (least : Nat) :
    (before : List (Run α × Nat)) → Run α → Option (List (Run α × Nat) × Run α)
  | [], run => some ([], run)
  | (left, d) :: before, run =>
    if least ≤ d then do
      let run ← join? less finish left run
      joinDeeper? less finish least before run
    else some ((left, d) :: before, run)

/-- Joins all runs. Each of those before the present one, which starts at `left`, is kept with the
depth at which it meets the next. -/
def joinAll? (less : α → α → Bool) (finish : List α → Option (List α)) (n : Nat) :
    (left : Nat) → (before : List (Run α × Nat)) → Run α → List (Run α) → Option (Run α)
  | _, before, run, [] => (joinDeeper? less finish 0 before run).map Prod.snd
  | left, before, run, next :: runs => do
    let mid := left + run.items.length
    let d := depth n left mid (mid + next.items.length)
    let (before, run) ← joinDeeper? less finish d before run
    joinAll? less finish n mid ((run, d) :: before) next runs

/-- A list in order. Short runs are put in order at once if `eager`, else by `finish` where they
are merged. -/
def arrange? (less : α → α → Bool) (eager : Bool) (finish : List α → Option (List α))
    (xs : List α) : Option (List α) := do
  let n := xs.length
  match ← runs? less eager (longLength n) n xs with
  | [] => some []
  | run :: runs => (← joinAll? less finish n 0 [] run runs).inOrder? finish

end Sorting

end ZPlane
