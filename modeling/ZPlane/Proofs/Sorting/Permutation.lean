import Mathlib
import ZPlane.Sorting.Stable

/-!
# Sorting permutes

Whatever the comparison says, a list that is sorted has the elements that it had before, each as
many times.  Insertion and merging from one end only move elements.  Merging from both ends takes
from each list at the front and at the back, and it fails unless what is left between the ends is
just the middle that it adds (`mergeEnds?_perm`).
-/

open scoped List

namespace ZPlane

namespace Sorting

variable {α : Type} {less : α → α → Bool}

/-- If the function gives a list, it is its argument in another order. -/
def Rearranges (f : List α → Option (List α)) : Prop := ∀ ⦃xs ys⦄, f xs = some ys → ys ~ xs

/-! ### Insertion -/

theorem insertDown_perm (less : α → α → Bool) (x : α) (ys : List α) :
    insertDown less x ys ~ x :: ys := by
  induction ys with
  | nil => exact .refl _
  | cons y ys ih =>
      rw [insertDown]
      split
      · exact (ih.cons y).trans (.swap x y ys)
      · exact .refl _

theorem foldl_insertDown_perm (less : α → α → Bool) (xs ys : List α) :
    xs.foldl (fun ys x ↦ insertDown less x ys) ys ~ ys ++ xs := by
  induction xs generalizing ys with
  | nil => rw [List.foldl_nil, List.append_nil]
  | cons x xs ih =>
      calc xs.foldl (fun ys x ↦ insertDown less x ys) (insertDown less x ys)
          ~ insertDown less x ys ++ xs := ih _
        _ ~ x :: ys ++ xs := (insertDown_perm less x ys).append_right xs
        _ ~ ys ++ x :: xs := List.perm_middle.symm

theorem insertAll_perm (less : α → α → Bool) (sorted xs : List α) :
    insertAll less sorted xs ~ sorted ++ xs := by
  calc insertAll less sorted xs
      ~ xs.foldl (fun ys x ↦ insertDown less x ys) sorted.reverse := List.reverse_perm _
    _ ~ sorted.reverse ++ xs := foldl_insertDown_perm less xs _
    _ ~ sorted ++ xs := (List.reverse_perm sorted).append_right xs

theorem pair_perm (less : α → α → Bool) (a b : α) : pair less a b ~ [a, b] := by
  rw [pair]
  split
  · exact .swap a b []
  · exact .refl _

/-- An exchange of the network. -/
theorem exists_exchanged (less : α → α → Bool) (a b : α) :
    ∃ x y, (if less b a then (b, a) else (a, b)) = (x, y) ∧ [x, y] ~ [a, b] := by
  split
  · exact ⟨b, a, rfl, .swap a b []⟩
  · exact ⟨a, b, rfl, .refl _⟩

theorem four_perm (less : α → α → Bool) (a b c d : α) : four less a b c d ~ [a, b, c, d] := by
  obtain ⟨x, y, hxy, hfirst⟩ := exists_exchanged less a b
  obtain ⟨z, w, hzw, hsecond⟩ := exists_exchanged less c d
  refine List.Perm.trans ?_ (hfirst.append hsecond)
  have hback : [z, x, y, w] ~ [x, y, z, w] :=
    (List.Perm.swap x z [y, w]).trans ((List.Perm.swap y z [w]).cons x)
  simp only [four, hxy, hzw, List.cons_append, List.nil_append]
  split
  · exact ((pair_perm less y z).append_right [w]).cons x
  · exact (((pair_perm less z w).append_right [y]).trans List.perm_append_comm).cons x
  · exact (((pair_perm less x y).append_right [w]).cons z).trans hback
  · calc z :: (pair less x w ++ [y])
        ~ z :: [x, w, y] := ((pair_perm less x w).append_right [y]).cons z
      _ ~ z :: [x, y, w] := ((List.Perm.swap y w []).cons x).cons z
      _ ~ [x, y, z, w] := hback

/-! ### Merging -/

theorem merge_perm (less : α → α → Bool) (left right : List α) :
    merge less left right ~ left ++ right := by
  rw [merge]
  split
  · exact List.merge_perm_append _
  · calc (right.reverse.merge left.reverse fun b a ↦ !less b a).reverse
        ~ right.reverse.merge left.reverse fun b a ↦ !less b a := List.reverse_perm _
      _ ~ right.reverse ++ left.reverse := List.merge_perm_append _
      _ ~ right ++ left := (List.reverse_perm _).append (List.reverse_perm _)
      _ ~ left ++ right := List.perm_append_comm

section Ends

variable {n : ℕ} {left right taken left' right' : List α}

/-- A merge takes a part of each list from its front. -/
theorem exists_parts (h : mergeFirst less n left right = (taken, left', right')) :
    ∃ as bs, left = as ++ left' ∧ right = bs ++ right' ∧ taken ~ as ++ bs := by
  fun_induction mergeFirst less n left right generalizing taken left' right' with
  | case1 n a left b right _ _ _ _ hrest ih =>
      cases h
      obtain ⟨as, bs, hleft, hright, hperm⟩ := ih hrest
      exact ⟨as, b :: bs, hleft, congrArg (b :: ·) hright,
        (hperm.cons b).trans List.perm_middle.symm⟩
  | case2 n a left b right _ _ _ _ hrest ih =>
      cases h
      obtain ⟨as, bs, hleft, hright, hperm⟩ := ih hrest
      exact ⟨a :: as, bs, congrArg (a :: ·) hleft, hright, hperm.cons a⟩
  | case3 =>
      cases h
      exact ⟨[], [], rfl, rfl, .refl _⟩

/-- It takes as many elements as it is asked for, if neither list runs out. -/
theorem length_of_mergeFirst (h : mergeFirst less n left right = (taken, left', right'))
    (hleft : n ≤ left.length) (hright : n ≤ right.length) : taken.length = n := by
  fun_induction mergeFirst less n left right generalizing taken left' right' with
  | case1 n a left b right _ _ _ _ hrest ih =>
      cases h
      rw [List.length_cons, ih hrest (Nat.le_of_succ_le hleft) (Nat.le_of_succ_le_succ hright)]
  | case2 n a left b right _ _ _ _ hrest ih =>
      cases h
      rw [List.length_cons, ih hrest (Nat.le_of_succ_le_succ hleft) (Nat.le_of_succ_le hright)]
  | case3 n left right hnone =>
      cases h
      cases n with
      | zero => rfl
      | succ n =>
          obtain ⟨a, left, rfl⟩ := List.exists_cons_of_length_pos (Nat.zero_lt_of_lt hleft)
          obtain ⟨b, right, rfl⟩ := List.exists_cons_of_length_pos (Nat.zero_lt_of_lt hright)
          exact (hnone _ _ _ _ _ rfl rfl rfl).elim

/-- Of two cuts of a list, what lies between them is in front of the rest behind the second. -/
theorem eq_take_append (as bs : List α) {rest behind : List α} {k : ℕ} (h : as ++ rest = bs ++ behind)
    (hk : rest.length = k + behind.length) : rest = rest.take k ++ behind := by
  have hcut : as ++ rest.take k ++ rest.drop k = bs ++ behind := by
    rw [List.append_assoc, List.take_append_drop, h]
  have hdrop : rest.drop k = behind := by
    refine (List.append_inj' hcut ?_).2
    rw [List.length_drop, hk, Nat.add_sub_cancel_left]
  rw [← hdrop, List.take_append_drop]

/-- What is taken from the fronts and from the backs of two lists and what lies between are the
whole lists. -/
theorem ends_perm {as bs cs ds front back left'' right'' : List α} {m k : ℕ}
    (hleft : left = as ++ left') (hright : right = bs ++ right') (hfront : front ~ as ++ bs)
    (hleft' : left.reverse = ds ++ left'') (hright' : right.reverse = cs ++ right'')
    (hback : back ~ cs ++ ds) (hm : left'.length = m + ds.length)
    (hk : right'.length = k + cs.length) :
    front ++ (left'.take m ++ right'.take k) ++ back.reverse ~ left ++ right := by
  have hbehind : left' = left'.take m ++ ds.reverse := by
    apply eq_take_append as left''.reverse
    · rw [← hleft, ← List.reverse_append, ← hleft', List.reverse_reverse]
    · rw [List.length_reverse, hm]
  have hbehind' : right' = right'.take k ++ cs.reverse := by
    apply eq_take_append bs right''.reverse
    · rw [← hright, ← List.reverse_append, ← hright', List.reverse_reverse]
    · rw [List.length_reverse, hk]
  calc front ++ (left'.take m ++ right'.take k) ++ back.reverse
      ~ as ++ bs ++ (left'.take m ++ right'.take k) ++ (cs ++ ds) :=
        (hfront.append_right _).append ((List.reverse_perm back).trans hback)
    _ ~ as ++ (left'.take m ++ ds.reverse) ++ (bs ++ (right'.take k ++ cs.reverse)) := by
        rw [← Multiset.coe_eq_coe]
        simp only [← Multiset.coe_add, Multiset.coe_reverse]
        abel
    _ = left ++ right := by rw [← hbehind, ← hbehind', ← hleft, ← hright]

/-- A merge from both ends has the elements of both lists. -/
theorem mergeEnds?_perm {zs : List α} (h : mergeEnds? less left right = some zs)
    (hle : left.length ≤ right.length) : zs ~ left ++ right := by
  rw [mergeEnds?] at h
  generalize hfront : mergeFirst less left.length left right = front at h
  obtain ⟨front, left', right'⟩ := front
  generalize hback : mergeFirst (fun b a ↦ less a b) left.length right.reverse left.reverse =
    back at h
  obtain ⟨back, right'', left''⟩ := back
  obtain ⟨as, bs, hleft, hright, hfronts⟩ := exists_parts hfront
  obtain ⟨cs, ds, hright', hleft', hbacks⟩ := exists_parts hback
  have hfrontCount := length_of_mergeFirst hfront le_rfl hle
  have hbackCount := length_of_mergeFirst hback (by rwa [List.length_reverse])
    (by rw [List.length_reverse])
  -- Each end has taken as many elements as the first list has, from both lists together.
  have hparts := hfronts.length_eq
  have hparts' := hbacks.length_eq
  have hlength := congrArg List.length hleft
  have hlength' := congrArg List.length hleft'
  have hcount := congrArg List.length hright
  simp only [List.length_append, List.length_reverse] at hparts hparts' hlength hlength' hcount
  dsimp only at h
  split_ifs at h with hwhole hodd
  · cases h
    have hends := ends_perm (m := 0) (k := right.length - left.length) hleft hright hfronts hleft'
      hright' hbacks (by omega) (by omega)
    rwa [List.take_zero, List.nil_append] at hends
  · cases h
    have hends := ends_perm (m := right.length - left.length) (k := 0) hleft hright hfronts hleft'
      hright' hbacks (by omega) (by omega)
    rwa [List.take_zero, List.append_nil] at hends

end Ends

/-! ### Short lists -/

theorem half?_perm (less : α → α → Bool) (n : ℕ) : Rearranges (half? less n) := by
  intro xs ys h
  unfold half? at h
  split at h
  · rename_i a b c d e f g i xs
    split at h
    · obtain ⟨zs, hmerged, rfl⟩ := Option.map_eq_some_iff.mp h
      have hfours := four_perm less a b c d
      have hfours' := four_perm less e f g i
      have hle : (four less a b c d).length ≤ (four less e f g i).length := by
        rw [hfours.length_eq, hfours'.length_eq]
        exact le_rfl
      calc insertAll less zs xs ~ zs ++ xs := insertAll_perm less zs xs
        _ ~ four less a b c d ++ four less e f g i ++ xs :=
            (mergeEnds?_perm hmerged hle).append_right xs
        _ ~ [a, b, c, d] ++ [e, f, g, i] ++ xs := (hfours.append hfours').append_right xs
    · cases h
      exact (insertAll_perm less _ _).trans ((four_perm less a b c d).append_right _)
  · rename_i a b c d xs _
    split at h
    · cases h
      exact (insertAll_perm less _ _).trans ((four_perm less a b c d).append_right _)
    · cases h
      exact insertAll_perm less [a] _
  · cases h
    exact insertAll_perm less [] _

theorem short?_perm (less : α → α → Bool) : Rearranges (short? less) := by
  intro xs ys h
  rw [short?] at h
  split at h
  · cases h
    exact .refl _
  · obtain ⟨left, hleft, h⟩ := Option.bind_eq_some_iff.mp h
    obtain ⟨right, hright, h⟩ := Option.bind_eq_some_iff.mp h
    have hpermLeft := half?_perm less _ hleft
    have hpermRight := half?_perm less _ hright
    have hle : left.length ≤ right.length := by
      rw [hpermLeft.length_eq, hpermRight.length_eq, List.length_take, List.length_drop]
      omega
    calc ys ~ left ++ right := mergeEnds?_perm h hle
      _ ~ xs.take (xs.length / 2) ++ xs.drop (xs.length / 2) := hpermLeft.append hpermRight
      _ = xs := List.take_append_drop _ xs

/-! ### Runs -/

/-- The elements of runs, one run after another. -/
def items (runs : List (Run α)) : List α := runs.flatMap Run.items

/-- A stretch is the beginning of its list. -/
theorem stretch_append (step : α → α → Bool) (a : α) (xs : List α) :
    (stretch step a xs).1 ++ (stretch step a xs).2 = xs := by
  induction xs generalizing a with
  | nil => rfl
  | cons b bs ih =>
      rw [stretch]
      split
      · exact congrArg (b :: ·) (ih b)
      · rfl

/-- A natural run, perhaps reversed, and the rest are the list. -/
theorem naturalRun_perm (less : α → α → Bool) (xs : List α) :
    (naturalRun less xs).1 ++ (naturalRun less xs).2 ~ xs := by
  unfold naturalRun
  split
  · rename_i a b bs
    split
    · calc (a :: (stretch (fun x y ↦ less y x) a (b :: bs)).1).reverse ++
            (stretch (fun x y ↦ less y x) a (b :: bs)).2
          ~ a :: (stretch (fun x y ↦ less y x) a (b :: bs)).1 ++
            (stretch (fun x y ↦ less y x) a (b :: bs)).2 := (List.reverse_perm _).append_right _
        _ = a :: b :: bs := congrArg (a :: ·) (stretch_append _ a (b :: bs))
    · calc a :: (stretch (fun x y ↦ !less y x) a (b :: bs)).1 ++
            (stretch (fun x y ↦ !less y x) a (b :: bs)).2
          = a :: b :: bs := congrArg (a :: ·) (stretch_append _ a (b :: bs))
        _ ~ a :: b :: bs := .refl _
  · exact .of_eq (List.append_nil _)

/-- The first run and the rest are the list. -/
theorem firstRun?_perm {eager : Bool} {long : ℕ} {xs rest : List α} {run : Run α}
    (h : firstRun? less eager long xs = some (run, rest)) : run.items ++ rest ~ xs := by
  rw [firstRun?] at h
  dsimp only at h
  split_ifs at h
  · cases h
    exact naturalRun_perm less xs
  · obtain ⟨ys, hys, hrun⟩ := Option.map_eq_some_iff.mp h
    cases hrun
    calc ys ++ xs.drop shortLength ~ xs.take shortLength ++ xs.drop shortLength :=
          (short?_perm less hys).append_right _
      _ = xs := List.take_append_drop _ xs
  · cases h
    exact .of_eq (List.take_append_drop _ xs)

theorem runs?_perm {eager : Bool} {long fuel : ℕ} {xs : List α} {runs : List (Run α)}
    (h : runs? less eager long fuel xs = some runs) : items runs ~ xs := by
  induction fuel generalizing xs runs with
  | zero =>
      cases xs with
      | nil =>
          cases h
          exact .refl _
      | cons x xs =>
          cases h
          exact .of_eq (List.append_nil _)
  | succ fuel ih =>
      cases xs with
      | nil =>
          cases h
          exact .refl _
      | cons x xs =>
          obtain ⟨⟨run, rest⟩, hfirst, h⟩ := Option.bind_eq_some_iff.mp h
          obtain ⟨runs, hruns, h⟩ := Option.bind_eq_some_iff.mp h
          cases h
          exact ((ih hruns).append_left run.items).trans (firstRun?_perm hfirst)

section Joins

variable {finish : List α → Option (List α)}

theorem inOrder?_perm (hfinish : Rearranges finish) {run : Run α} {xs : List α}
    (h : run.inOrder? finish = some xs) : xs ~ run.items := by
  rw [Run.inOrder?] at h
  split at h
  · cases h
    exact .refl _
  · exact hfinish h

/-- A joined run has the elements of both. -/
theorem join?_perm (hfinish : Rearranges finish) {left right run : Run α}
    (h : join? less finish left right = some run) : run.items ~ left.items ++ right.items := by
  rw [join?] at h
  split at h
  · obtain ⟨xs, hxs, h⟩ := Option.bind_eq_some_iff.mp h
    obtain ⟨ys, hys, h⟩ := Option.bind_eq_some_iff.mp h
    cases h
    exact (merge_perm less xs ys).trans
      ((inOrder?_perm hfinish hxs).append (inOrder?_perm hfinish hys))
  · cases h
    exact .refl _

/-- The runs that wait to be joined, the nearest first, with their depths. -/
def waiting (before : List (Run α × ℕ)) : List α := before.flatMap fun w ↦ w.1.items

/-- No element is lost from a run and those that wait before it. -/
theorem joinDeeper?_perm (hfinish : Rearranges finish) {least : ℕ}
    {before before' : List (Run α × ℕ)} {run run' : Run α}
    (h : joinDeeper? less finish least before run = some (before', run')) :
    run'.items ++ waiting before' ~ run.items ++ waiting before := by
  induction before generalizing run with
  | nil =>
      cases h
      exact .refl _
  | cons w before ih =>
      obtain ⟨left, d⟩ := w
      rw [joinDeeper?] at h
      split at h
      · obtain ⟨joined, hjoined, h⟩ := Option.bind_eq_some_iff.mp h
        calc run'.items ++ waiting before' ~ joined.items ++ waiting before := ih h
          _ ~ left.items ++ run.items ++ waiting before :=
              (join?_perm hfinish hjoined).append_right _
          _ ~ run.items ++ left.items ++ waiting before := List.perm_append_comm.append_right _
          _ = run.items ++ waiting ((left, d) :: before) := List.append_assoc ..
      · cases h
        exact .refl _

/-- The depth of every run is zero at least. -/
theorem joinDeeper?_zero {before before' : List (Run α × ℕ)} {run run' : Run α}
    (h : joinDeeper? less finish 0 before run = some (before', run')) : before' = [] := by
  induction before generalizing run with
  | nil =>
      cases h
      rfl
  | cons w before ih =>
      obtain ⟨left, d⟩ := w
      rw [joinDeeper?, if_pos (Nat.zero_le d)] at h
      obtain ⟨joined, -, h⟩ := Option.bind_eq_some_iff.mp h
      exact ih h

/-- The last run has the elements of all. -/
theorem joinAll?_perm (hfinish : Rearranges finish) {n left : ℕ} {before : List (Run α × ℕ)}
    {run run' : Run α} {runs : List (Run α)}
    (h : joinAll? less finish n left before run runs = some run') :
    run'.items ~ run.items ++ waiting before ++ items runs := by
  induction runs generalizing left before run with
  | nil =>
      obtain ⟨⟨before', joined⟩, hjoined, rfl⟩ := Option.map_eq_some_iff.mp h
      obtain rfl := joinDeeper?_zero hjoined
      calc joined.items = joined.items ++ waiting [] := (List.append_nil _).symm
        _ ~ run.items ++ waiting before := joinDeeper?_perm hfinish hjoined
        _ = run.items ++ waiting before ++ items [] := (List.append_nil _).symm
  | cons next runs ih =>
      obtain ⟨⟨before', joined⟩, hjoined, h⟩ := Option.bind_eq_some_iff.mp h
      calc run'.items ~ next.items ++ (joined.items ++ waiting before') ++ items runs := ih h
        _ ~ next.items ++ (run.items ++ waiting before) ++ items runs :=
            ((joinDeeper?_perm hfinish hjoined).append_left _).append_right _
        _ ~ run.items ++ waiting before ++ next.items ++ items runs :=
            List.perm_append_comm.append_right _
        _ = run.items ++ waiting before ++ items (next :: runs) := List.append_assoc ..

theorem arrange?_perm (hfinish : Rearranges finish) (less : α → α → Bool) (eager : Bool) :
    Rearranges (arrange? less eager finish) := by
  intro xs ys h
  obtain ⟨runs, hruns, h⟩ := Option.bind_eq_some_iff.mp h
  have hitems := runs?_perm hruns
  cases runs with
  | nil =>
      cases h
      exact hitems
  | cons run runs =>
      obtain ⟨joined, hjoined, h⟩ := Option.bind_eq_some_iff.mp h
      calc ys ~ joined.items := inOrder?_perm hfinish h
        _ ~ run.items ++ waiting [] ++ items runs := joinAll?_perm hfinish hjoined
        _ = items (run :: runs) := by rw [waiting, List.flatMap_nil, List.append_nil]; rfl
        _ ~ xs := hitems

end Joins

/-! ### Partition -/

/-- What is split around a pivot is the list. -/
theorem splitAround_perm (p : α → Bool) (goesLeft : Bool) (k : ℕ) (xs : List α) :
    (splitAround p goesLeft k xs).1 ++ (splitAround p goesLeft k xs).2 ~ xs := by
  rw [splitAround, List.partition_eq_filter_filter]
  dsimp only
  rw [← List.map_append]
  exact ((List.filter_append_perm _ _).map _).trans (.of_eq (List.zipIdx_map_fst 0 xs))

theorem quick?_perm (less : α → α → Bool) (limit : ℕ) (bound : Option α) :
    Rearranges (quick? less limit bound) := by
  induction limit generalizing bound with
  | zero =>
      intro xs ys h
      rw [quick?] at h
      split at h
      · exact short?_perm less h
      · exact arrange?_perm (fun zs ws hsame ↦ .of_eq (Option.some.inj hsame).symm) less true h
  | succ limit ih =>
      intro xs ys h
      rw [quick?] at h
      split at h
      · exact short?_perm less h
      · dsimp only at h
        split at h
        · cases h
        · rename_i pivot _
          split at h
          · obtain ⟨zs, hzs, h⟩ := Option.bind_eq_some_iff.mp h
            cases h
            exact ((ih none hzs).append_left _).trans (splitAround_perm _ true _ xs)
          · obtain ⟨zs, hzs, h⟩ := Option.bind_eq_some_iff.mp h
            obtain ⟨ws, hws, h⟩ := Option.bind_eq_some_iff.mp h
            cases h
            exact ((ih bound hws).append (ih (some pivot) hzs)).trans
              (splitAround_perm _ false _ xs)

/-- A sorted list has the elements of the list, whatever the comparison says. -/
theorem sort?_perm (less : α → α → Bool) : Rearranges (sort? less) := by
  intro xs ys h
  rw [sort?] at h
  split at h
  · cases h
    exact insertAll_perm less [] xs
  · exact arrange?_perm (fun zs _ hzs ↦ quick?_perm less _ none hzs) less _ h

end Sorting

end ZPlane
