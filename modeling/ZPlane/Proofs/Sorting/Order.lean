import Mathlib
import ZPlane.Proofs.Sorting.Ends

/-!
# Sorting puts in order

A list with a consistent comparison is always sorted, and what comes out is in order
(`exists_sort?`).  A run that is marked as sorted is in order, and any other is left to a function
that puts every list in order (`Ready`); merging keeps this.  In a split by a pivot the left part is
less than the right one, and the elements that are not greater than a pivot at the bound have all
the same rank.
-/

open scoped List

namespace ZPlane

namespace Sorting

variable {α β : Type} [LinearOrder β] {less : α → α → Bool} {rank : α → β} {all : List α}

/-! ### Stretches in order -/

/-- A stretch goes up if each of its steps does. -/
theorem ordered_stretch {step : α → α → Bool} {a : α} {xs : List α}
    (hstep : ∀ x ∈ all, ∀ y ∈ all, step x y = true → rank x ≤ rank y) (ha : a ∈ all)
    (hxs : xs ⊆ all) : Ordered rank (a :: (stretch step a xs).1) := by
  induction xs generalizing a with
  | nil => exact List.pairwise_singleton _ a
  | cons b bs ih =>
      obtain ⟨hb, hbs⟩ := List.cons_subset.mp hxs
      rw [stretch]
      split
      case isTrue hab =>
        have hle := hstep a ha b hb hab
        have hordered := ih hb hbs
        refine List.pairwise_cons.mpr ⟨fun z hz ↦ ?_, hordered⟩
        rcases List.mem_cons.mp hz with rfl | hz
        · exact hle
        · exact hle.trans (List.rel_of_pairwise_cons hordered hz)
      case isFalse => exact List.pairwise_singleton _ a

/-- A natural run is in order, also if it was found backwards. -/
theorem ordered_naturalRun (hless : RankedBy less rank all) {xs : List α} (hxs : xs ⊆ all) :
    Ordered rank (naturalRun less xs).1 := by
  unfold naturalRun
  split
  · rename_i a b bs
    obtain ⟨ha, hbs⟩ := List.cons_subset.mp hxs
    split
    · rw [← ordered_reverse, List.reverse_reverse]
      exact ordered_stretch (fun x hx y hy hyx ↦ ((hless y hy x hx).mp hyx).le) ha hbs
    · refine ordered_stretch (fun x hx y hy hyx ↦ ?_) ha hbs
      rw [Bool.not_eq_true', hless.eq_false_iff hy hx] at hyx
      exact hyx
  · rename_i hshort
    match xs with
    | [] => exact .nil
    | [x] => exact List.pairwise_singleton _ x
    | a :: b :: bs => exact absurd rfl (hshort a b bs)

theorem naturalRun_ne_nil (less : α → α → Bool) {xs : List α} (hxs : xs ≠ []) :
    (naturalRun less xs).1 ≠ [] := by
  unfold naturalRun
  split
  · split
    · simp
    · simp
  · exact hxs

/-! ### Runs -/

section Runs

variable {finish : List α → Option (List α)} {run left right : Run α} {runs : List (Run α)}
  {before : List (Run α × ℕ)} {eager : Bool} {xs : List α}

/-- A run of these elements is in order, or `finish` will put it in order. -/
structure Ready (rank : α → β) (all : List α) (finish : List α → Option (List α)) (run : Run α) :
    Prop where
  subset : run.items ⊆ all
  ordered : run.sorted = true → Ordered rank run.items
  orders : run.sorted = false → Orders rank all finish

/-- A run that is ready is put in order. -/
theorem Ready.exists_inOrder? (h : Ready rank all finish run) (hfinish : Rearranges finish) :
    ∃ ys, run.inOrder? finish = some ys ∧ ys ⊆ all ∧ Ordered rank ys := by
  have hitems : ∃ ys, run.inOrder? finish = some ys ∧ Ordered rank ys := by
    rw [Run.inOrder?]
    split
    case isTrue hsorted => exact ⟨_, rfl, h.ordered hsorted⟩
    case isFalse hunsorted => exact h.orders (Bool.not_eq_true _ ▸ hunsorted) _ h.subset
  obtain ⟨ys, hys, hordered⟩ := hitems
  exact ⟨ys, hys, subset_of_perm (inOrder?_perm hfinish hys) h.subset, hordered⟩

/-- The first run is ready, and it is not empty if no run may be left to `finish`. -/
theorem exists_firstRun? (hless : RankedBy less rank all)
    (hmode : eager = false → Orders rank all finish) (long : ℕ) (hxs : xs ⊆ all) (hne : xs ≠ []) :
    ∃ run rest, firstRun? less eager long xs = some (run, rest) ∧ Ready rank all finish run ∧
      rest ⊆ all ∧ (eager = true → rest.length < xs.length) := by
  have hperm := naturalRun_perm less xs
  obtain ⟨hrun, hrest⟩ := List.append_subset.mp (subset_of_perm hperm hxs)
  rw [firstRun?]
  dsimp only
  split_ifs with hlong heager
  · refine ⟨_, _, rfl, ⟨hrun, fun _ ↦ ordered_naturalRun hless hxs, fun h ↦ (by cases h)⟩, hrest,
      fun _ ↦ ?_⟩
    have hpos := List.length_pos_iff.mpr (naturalRun_ne_nil less hne)
    rw [← hperm.length_eq, List.length_append]
    omega
  · have hfront : xs.take shortLength ⊆ all := List.Subset.trans (List.take_subset _ xs) hxs
    obtain ⟨ys, hys, hordered⟩ := orders_short? hless _ hfront
    refine ⟨⟨ys, true⟩, xs.drop shortLength, by rw [hys]; rfl,
      ⟨subset_of_perm (short?_perm less hys) hfront, fun _ ↦ hordered, fun h ↦ (by cases h)⟩,
      List.Subset.trans (List.drop_subset _ xs) hxs, fun _ ↦ ?_⟩
    have hpos := List.length_pos_iff.mpr hne
    rw [List.length_drop, shortLength]
    omega
  · exact ⟨_, _, rfl, ⟨List.Subset.trans (List.take_subset _ xs) hxs, fun h ↦ (by cases h),
      fun _ ↦ hmode (Bool.not_eq_true _ ▸ heager)⟩, List.Subset.trans (List.drop_subset _ xs) hxs,
      fun h ↦ absurd h heager⟩

/-- The runs of a list are ready. -/
theorem exists_runs? (hless : RankedBy less rank all)
    (hmode : eager = false → Orders rank all finish) (long fuel : ℕ) (hxs : xs ⊆ all)
    (hfuel : eager = true → xs.length ≤ fuel) :
    ∃ runs, runs? less eager long fuel xs = some runs ∧ ∀ run ∈ runs, Ready rank all finish run := by
  induction fuel generalizing xs with
  | zero =>
      cases xs with
      | nil => exact ⟨[], rfl, fun run hrun ↦ absurd hrun List.not_mem_nil⟩
      | cons x xs =>
          have heager : eager = false := by
            by_contra heager
            exact absurd (hfuel (Bool.not_eq_false _ ▸ heager)) (Nat.not_succ_le_zero _)
          refine ⟨[⟨x :: xs, false⟩], rfl, fun run hrun ↦ ?_⟩
          rw [List.mem_singleton.mp hrun]
          exact ⟨hxs, fun h ↦ (by cases h), fun _ ↦ hmode heager⟩
  | succ fuel ih =>
      cases xs with
      | nil => exact ⟨[], rfl, fun run hrun ↦ absurd hrun List.not_mem_nil⟩
      | cons x xs =>
          obtain ⟨run, rest, hfirst, hready, hrest, hshorter⟩ :=
            exists_firstRun? hless hmode long hxs (List.cons_ne_nil x xs)
          obtain ⟨runs, hruns, hall⟩ := ih hrest fun h ↦ by
            have := hshorter h
            have := hfuel h
            omega
          refine ⟨run :: runs, by simp [runs?, hfirst, hruns], fun run' hrun' ↦ ?_⟩
          rcases List.mem_cons.mp hrun' with rfl | hrun'
          · exact hready
          · exact hall run' hrun'

/-! ### Joins -/

/-- Two runs that are ready are joined to one that is. -/
theorem Ready.exists_join? (hless : RankedBy less rank all) (hfinish : Rearranges finish)
    (hleft : Ready rank all finish left) (hright : Ready rank all finish right) :
    ∃ run, join? less finish left right = some run ∧ Ready rank all finish run := by
  rw [join?]
  split
  case isTrue =>
    obtain ⟨xs, hxs, hxsub, hx⟩ := hleft.exists_inOrder? hfinish
    obtain ⟨ys, hys, hysub, hy⟩ := hright.exists_inOrder? hfinish
    refine ⟨⟨merge less xs ys, true⟩, by simp [hxs, hys], ?_, fun _ ↦ ?_, fun h ↦ (by cases h)⟩
    · exact subset_of_perm (merge_perm less xs ys) (List.append_subset.mpr ⟨hxsub, hysub⟩)
    · exact ordered_merge hless hxsub hysub hx hy
  case isFalse hunsorted =>
    have hleftUnsorted : left.sorted = false := by
      cases hsorted : left.sorted with
      | false => rfl
      | true => simp [hsorted] at hunsorted
    refine ⟨⟨left.items ++ right.items, false⟩, rfl, ?_, fun h ↦ (by cases h), fun _ ↦ ?_⟩
    · exact List.append_subset.mpr ⟨hleft.subset, hright.subset⟩
    · exact hleft.orders hleftUnsorted

/-- The runs before a run are joined with it and stay ready. -/
theorem exists_joinDeeper? (hless : RankedBy less rank all) (hfinish : Rearranges finish)
    (least : ℕ) (hbefore : ∀ w ∈ before, Ready rank all finish w.1)
    (hrun : Ready rank all finish run) :
    ∃ before' run', joinDeeper? less finish least before run = some (before', run') ∧
      (∀ w ∈ before', Ready rank all finish w.1) ∧ Ready rank all finish run' := by
  induction before generalizing run with
  | nil => exact ⟨[], run, rfl, hbefore, hrun⟩
  | cons w before ih =>
      obtain ⟨left, d⟩ := w
      obtain ⟨hleft, hrest⟩ := List.forall_mem_cons.mp hbefore
      rw [joinDeeper?]
      split
      case isTrue =>
        obtain ⟨joined, hjoined, hready⟩ := hleft.exists_join? hless hfinish hrun
        obtain ⟨before', run', hdeeper, hbefore', hrun'⟩ := ih hrest hready
        exact ⟨before', run', by simp [hjoined, hdeeper], hbefore', hrun'⟩
      case isFalse => exact ⟨_, run, rfl, hbefore, hrun⟩

/-- All runs are joined to one that is ready. -/
theorem exists_joinAll? (hless : RankedBy less rank all) (hfinish : Rearranges finish)
    (n start : ℕ) (hbefore : ∀ w ∈ before, Ready rank all finish w.1)
    (hrun : Ready rank all finish run) (hruns : ∀ run ∈ runs, Ready rank all finish run) :
    ∃ run', joinAll? less finish n start before run runs = some run' ∧
      Ready rank all finish run' := by
  induction runs generalizing start before run with
  | nil =>
      obtain ⟨before', run', hdeeper, -, hrun'⟩ :=
        exists_joinDeeper? hless hfinish 0 hbefore hrun
      exact ⟨run', by simp [joinAll?, hdeeper], hrun'⟩
  | cons next runs ih =>
      obtain ⟨hnext, hruns⟩ := List.forall_mem_cons.mp hruns
      have hdeeper (d : ℕ) := exists_joinDeeper? hless hfinish d hbefore hrun
      rw [joinAll?]
      obtain ⟨before', run', hdeeper, hbefore', hrun'⟩ := hdeeper _
      rw [hdeeper]
      exact ih _ (List.forall_mem_cons.mpr ⟨hrun', hbefore'⟩) hnext hruns

/-- A list is put in order if every run is, at once or by `finish`. -/
theorem orders_arrange? (hless : RankedBy less rank all) (hfinish : Rearranges finish)
    (hmode : eager = false → Orders rank all finish) :
    Orders rank all (arrange? less eager finish) := by
  intro xs hxs
  obtain ⟨runs, hruns, hready⟩ := exists_runs? hless hmode (longLength xs.length) xs.length hxs
    fun _ ↦ le_rfl
  rw [arrange?]
  rw [hruns]
  cases runs with
  | nil => exact ⟨[], rfl, .nil⟩
  | cons run runs =>
      obtain ⟨hrun, hrest⟩ := List.forall_mem_cons.mp hready
      obtain ⟨joined, hjoined, hall⟩ := exists_joinAll? hless hfinish xs.length 0
        (fun w hw ↦ absurd hw List.not_mem_nil) hrun hrest
      obtain ⟨ys, hys, -, hordered⟩ := hall.exists_inOrder? hfinish
      exact ⟨ys, by simp [hjoined, hys], hordered⟩

end Runs

/-! ### Partition -/

section Partition

variable {p : α → Bool} {goesLeft : Bool} {k limit : ℕ} {bound : Option α} {pivot x : α}
  {xs : List α}

theorem median_mem (lt : ℕ → ℕ → Bool) (a b c : ℕ) : median lt a b c ∈ [a, b, c] := by
  unfold median
  split_ifs
  · simp
  · simp
  · simp

theorem representative_lt (lt : ℕ → ℕ → Bool) {n : ℕ} (start : ℕ) (hn : 0 < n) :
    representative lt n start < start + n := by
  fun_induction representative lt n start with
  | case1 n start m a b c _ =>
      have hmem := median_mem lt a b c
      simp only [List.mem_cons, List.not_mem_nil, or_false] at hmem
      omega
  | case2 n start m a b c _ iha ihb ihc =>
      have hm : 0 < m := by omega
      have ha := iha hm
      have hb := ihb hm
      have hc := ihc hm
      have hmem := median_mem lt (representative lt m a) (representative lt m b)
        (representative lt m c)
      simp only [List.mem_cons, List.not_mem_nil, or_false] at hmem
      omega

/-- What goes to the left is what the predicate holds of, the pivot apart. -/
theorem mem_splitAround_fst :
    x ∈ (splitAround p goesLeft k xs).1 ↔
      ∃ i, xs[i]? = some x ∧ (if i = k then goesLeft else p x) = true := by
  simp [splitAround, List.partition_eq_filter_filter, List.mem_zipIdx_iff_getElem?]

/-- What goes to the right is what the predicate fails for, the pivot apart. -/
theorem mem_splitAround_snd :
    x ∈ (splitAround p goesLeft k xs).2 ↔
      ∃ i, xs[i]? = some x ∧ (if i = k then goesLeft else p x) = false := by
  simp [splitAround, List.partition_eq_filter_filter, List.mem_zipIdx_iff_getElem?]

/-- The bound, if there is one, is not greater than any of the elements. -/
def Bounds (rank : α → β) (all : List α) (bound : Option α) (xs : List α) : Prop :=
  ∀ b ∈ bound, b ∈ all ∧ ∀ x ∈ xs, rank b ≤ rank x

theorem Bounds.none (rank : α → β) (all xs : List α) : Bounds rank all none xs :=
  fun b hb ↦ (by cases hb)

theorem Bounds.some (hpivot : pivot ∈ all) (hleast : ∀ x ∈ xs, rank pivot ≤ rank x) :
    Bounds rank all (some pivot) xs := by
  intro b hb
  cases hb
  exact ⟨hpivot, hleast⟩

theorem Bounds.mono {ys : List α} (h : Bounds rank all bound xs) (hsub : ys ⊆ xs) :
    Bounds rank all bound ys :=
  fun b hb ↦ ⟨(h b hb).1, fun x hx ↦ (h b hb).2 x (hsub hx)⟩

/-- Where the pivot is least, the elements that are not greater than it have its rank. -/
theorem exists_quick?_of_least (hless : RankedBy less rank all) (hxs : xs ⊆ all)
    (hpivot : xs[k]? = some pivot) (hleast : ∀ x ∈ xs, rank pivot ≤ rank x)
    (hright : ∀ ys ⊆ all, ∃ zs, quick? less limit none ys = some zs ∧ Ordered rank zs) :
    ∃ zs, quick? less limit none (splitAround (fun x ↦ !less pivot x) true k xs).2 = some zs ∧
      Ordered rank ((splitAround (fun x ↦ !less pivot x) true k xs).1 ++ zs) := by
  have hperm := splitAround_perm (fun x ↦ !less pivot x) true k xs
  obtain ⟨hl, hr⟩ := List.append_subset.mp hperm.subset
  have hpivotAll := hxs (List.mem_of_getElem? hpivot)
  obtain ⟨zs, hzs, hordered⟩ := hright _ (List.Subset.trans hr hxs)
  have hleft {x : α} (hx : x ∈ (splitAround (fun x ↦ !less pivot x) true k xs).1) :
      rank x ≤ rank pivot := by
    obtain ⟨i, hi, hside⟩ := mem_splitAround_fst.mp hx
    split at hside
    case isTrue hik =>
      subst hik
      rw [hpivot] at hi
      rw [Option.some.inj hi]
    case isFalse =>
      rwa [Bool.not_eq_true', hless.eq_false_iff hpivotAll (hxs (hl hx))] at hside
  refine ⟨zs, hzs, List.pairwise_append.mpr ⟨?_, hordered, fun x hx z hz ↦ ?_⟩⟩
  · refine List.pairwise_of_forall_mem_list fun x hx y hy ↦ ?_
    exact (hleft hx).trans (hleast y (hl hy))
  · have hz := (quick?_perm less limit none hzs).mem_iff.mp hz
    exact (hleft hx).trans (hleast z (hr hz))

/-- What is less than the pivot goes before what is not. -/
theorem rank_le_of_splitAround (hless : RankedBy less rank all) (hxs : xs ⊆ all)
    (hpivot : xs[k]? = some pivot) :
    (∀ x ∈ (splitAround (fun x ↦ less x pivot) false k xs).1, rank x < rank pivot) ∧
      ∀ y ∈ (splitAround (fun x ↦ less x pivot) false k xs).2, rank pivot ≤ rank y := by
  have hpivotAll := hxs (List.mem_of_getElem? hpivot)
  refine ⟨fun x hx ↦ ?_, fun y hy ↦ ?_⟩
  · obtain ⟨i, hi, hside⟩ := mem_splitAround_fst.mp hx
    split at hside
    case isTrue => cases hside
    case isFalse => exact (hless x (hxs (List.mem_of_getElem? hi)) pivot hpivotAll).mp hside
  · obtain ⟨i, hi, hside⟩ := mem_splitAround_snd.mp hy
    split at hside
    case isTrue hik =>
      subst hik
      rw [hpivot] at hi
      rw [Option.some.inj hi]
    case isFalse =>
      exact (hless.eq_false_iff (hxs (List.mem_of_getElem? hi)) hpivotAll).mp hside

/-- A pivot is least if nothing goes before it, or if it is not greater than the bound. -/
theorem pivot_least (hless : RankedBy less rank all) (hxs : xs ⊆ all) (hpivot : xs[k]? = some pivot)
    (hbound : Bounds rank all bound xs)
    (h : ((splitAround (fun x ↦ less x pivot) false k xs).1.isEmpty ||
      bound.any (fun b ↦ !less b pivot)) = true) :
    ∀ x ∈ xs, rank pivot ≤ rank x := by
  intro x hx
  rcases Bool.or_eq_true_iff.mp h with hempty | hb
  · have hperm := splitAround_perm (fun x ↦ less x pivot) false k xs
    rw [List.isEmpty_iff] at hempty
    rw [← hperm.mem_iff, hempty, List.nil_append] at hx
    exact (rank_le_of_splitAround hless hxs hpivot).2 x hx
  · obtain ⟨b, rfl, hpb⟩ := (Option.any_eq_true _ _).mp hb
    obtain ⟨hball, hleast⟩ := hbound b rfl
    rw [Bool.not_eq_true', hless.eq_false_iff hball (hxs (List.mem_of_getElem? hpivot))] at hpb
    exact hpb.trans (hleast x hx)

/-- The bound is not greater than any of the elements, so a pivot that is not greater than the bound
is least. -/
theorem exists_quick? (hless : RankedBy less rank all) (hxs : xs ⊆ all)
    (hbound : Bounds rank all bound xs) :
    ∃ ys, quick? less limit bound xs = some ys ∧ Ordered rank ys := by
  induction limit generalizing bound xs with
  | zero =>
      rw [quick?]
      split
      · exact orders_short? hless xs hxs
      · refine orders_arrange? hless (fun zs ws h ↦ .of_eq ?_) (fun h ↦ ?_) xs hxs
        · exact (Option.some.inj h).symm
        · cases h
  | succ limit ih =>
      rw [quick?]
      split
      case isTrue => exact orders_short? hless xs hxs
      case isFalse hlong =>
        have hk := representative_lt (lessAt less xs) 0 (Nat.zero_lt_of_lt (not_le.mp hlong))
        rw [Nat.zero_add] at hk
        dsimp only
        generalize representative (lessAt less xs) xs.length 0 = k at hk
        have hpivot := List.getElem?_eq_getElem hk
        generalize xs[k] = pivot at hpivot
        have hpivotAll := hxs (List.mem_of_getElem? hpivot)
        obtain ⟨hlt, hge⟩ := rank_le_of_splitAround hless hxs hpivot
        have hperm := splitAround_perm (fun x ↦ less x pivot) false k xs
        obtain ⟨hl, hr⟩ := List.append_subset.mp hperm.subset
        rw [hpivot]
        dsimp only
        split
        case isTrue hequal =>
          have hleast := pivot_least hless hxs hpivot hbound hequal
          obtain ⟨zs, hzs, hordered⟩ := exists_quick?_of_least hless hxs hpivot hleast
            fun ys hys ↦ ih hys (.none rank all ys)
          exact ⟨_, by rw [hzs]; rfl, hordered⟩
        case isFalse =>
          -- The pivot bounds what goes right, and the old bound what goes left.
          obtain ⟨zs, hzs, hz⟩ := ih (List.Subset.trans hr hxs) (.some hpivotAll hge)
          obtain ⟨ws, hws, hw⟩ := ih (List.Subset.trans hl hxs) (hbound.mono hl)
          refine ⟨ws ++ zs, by rw [hzs, hws]; rfl, List.pairwise_append.mpr ⟨hw, hz, ?_⟩⟩
          intro x hx y hy
          have hx := (quick?_perm less limit bound hws).mem_iff.mp hx
          have hy := (quick?_perm less limit (some pivot) hzs).mem_iff.mp hy
          exact (hlt x hx).le.trans (hge y hy)

end Partition

/-! ### Sorting -/

/-- A comparison by ranks puts every list in order. -/
theorem orders_sort? (hless : RankedBy less rank all) : Orders rank all (sort? less) := by
  intro xs hxs
  rw [sort?]
  split
  · exact ⟨_, rfl, ordered_insertAll hless hxs (List.nil_subset all) .nil⟩
  · refine orders_arrange? hless (fun ys zs hzs ↦ ?_) (fun _ ys hys ↦ ?_) xs hxs
    · exact quick?_perm less _ none hzs
    · exact exists_quick? hless hys (.none rank all ys)

/-- The list of a consistent comparison is always sorted, and nothing stands before what is less. -/
theorem exists_sort? {xs : List α} (h : Consistent less xs) :
    ∃ ys, sort? less xs = some ys ∧ ys ~ xs ∧ ys.Pairwise fun a b ↦ less b a = false := by
  obtain ⟨rank, hless⟩ := h.exists_ranked
  obtain ⟨ys, hys, hordered⟩ := orders_sort? hless xs (List.Subset.refl xs)
  have hperm := sort?_perm less hys
  refine ⟨ys, hys, hperm, hordered.imp_of_mem fun ha hb hle ↦ ?_⟩
  exact (hless.eq_false_iff (hperm.mem_iff.mp hb) (hperm.mem_iff.mp ha)).mpr hle

/-- In order, lists of the same elements have the same ranks at every place. -/
theorem map_rank_eq {xs ys : List α} (hperm : xs ~ ys) (hx : Ordered rank xs)
    (hy : Ordered rank ys) : xs.map rank = ys.map rank :=
  (hperm.map rank).eq_of_pairwise (fun _ _ _ _ hab hba ↦ le_antisymm hab hba)
    (List.pairwise_map.mpr hx) (List.pairwise_map.mpr hy)

/-- Lists of the same elements are sorted to lists that the comparison does not tell apart. -/
theorem sort?_agree {xs xs' ys ys' : List α} (h : Consistent less xs) (hperm : xs' ~ xs)
    (hys : sort? less xs = some ys) (hys' : sort? less xs' = some ys') :
    List.Forall₂ (fun a b ↦ less a b = false ∧ less b a = false) ys ys' := by
  obtain ⟨rank, hless⟩ := h.exists_ranked
  have hordered {zs ws : List α} (hzs : zs ~ xs) (hws : sort? less zs = some ws) :
      Ordered rank ws ∧ ws ~ xs := by
    obtain ⟨ws', hws', hordered⟩ := orders_sort? hless zs hzs.subset
    cases hws.symm.trans hws'
    exact ⟨hordered, (sort?_perm less hws).trans hzs⟩
  obtain ⟨hy, hperm₁⟩ := hordered (.refl xs) hys
  obtain ⟨hy', hperm₂⟩ := hordered hperm hys'
  have hmap := map_rank_eq (hperm₁.trans hperm₂.symm) hy hy'
  have hlength : ys.length = ys'.length := (hperm₁.trans hperm₂.symm).length_eq
  refine List.forall₂_iff_get.mpr ⟨hlength, fun i hi hi' ↦ ?_⟩
  have hmem : ys.get ⟨i, hi⟩ ∈ xs := hperm₁.subset (List.get_mem ys _)
  have hmem' : ys'.get ⟨i, hi'⟩ ∈ xs := hperm₂.subset (List.get_mem ys' _)
  have hrank : rank (ys.get ⟨i, hi⟩) = rank (ys'.get ⟨i, hi'⟩) := by
    have hget := congrArg (·[i]?) hmap
    simpa [hi, hi'] using hget
  exact ⟨(hless.eq_false_iff hmem hmem').mpr hrank.ge, (hless.eq_false_iff hmem' hmem).mpr hrank.le⟩

/-- A list of few elements is sorted whatever the comparison says. -/
theorem exists_sort?_of_length_le (less : α → α → Bool) {xs : List α}
    (h : xs.length ≤ insertionLength) : ∃ ys, sort? less xs = some ys :=
  ⟨_, if_pos h⟩

end Sorting

end ZPlane
