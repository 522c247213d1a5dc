import Mathlib
import ZPlane.Proofs.Sorting.Permutation

/-!
# Ranks

A comparison is consistent on a list if it is asymmetric there and "not less" is transitive.  Then
it compares ranks: the rank of an element is the number of those that are less (`exists_ranked`).
Everything about order is said of ranks in any linear order, so that it can be read backwards too
(`RankedBy.dual`).

Insertion keeps a list in the order of its ranks, and so do the merge from one end and the network
of five comparisons.
-/

open scoped List

namespace ZPlane

namespace Sorting

variable {α β : Type} {less : α → α → Bool} {all xs ys : List α}

/-! ### Consistent comparisons -/

/-- The comparison is a strict weak order on the elements of the list. -/
structure Consistent (less : α → α → Bool) (xs : List α) : Prop where
  asymm : ∀ a ∈ xs, ∀ b ∈ xs, less a b = true → less b a = false
  trans : ∀ a ∈ xs, ∀ b ∈ xs, ∀ c ∈ xs, less b a = false → less c b = false → less c a = false

namespace Consistent

variable {a b x : α}

theorem mono (h : Consistent less xs) (hsub : ys ⊆ xs) : Consistent less ys where
  asymm a ha b hb := h.asymm a (hsub ha) b (hsub hb)
  trans a ha b hb c hc := h.trans a (hsub ha) b (hsub hb) c (hsub hc)

theorem irrefl (h : Consistent less xs) (ha : a ∈ xs) : less a a = false := by
  cases haa : less a a with
  | false => rfl
  | true => exact haa.symm.trans (h.asymm a ha a ha haa)

/-- What is less than `a` is less than every `b` that is not less than `a`. -/
theorem less_of_less (h : Consistent less xs) (ha : a ∈ xs) (hb : b ∈ xs) (hx : x ∈ xs)
    (hab : less b a = false) (hxa : less x a = true) : less x b = true := by
  by_contra hxb
  rw [Bool.not_eq_true] at hxb
  have hxa' := h.trans a ha b hb x hx hab hxb
  rw [hxa] at hxa'
  cases hxa'

/-- What is less than `a` is less than `b`, and `a` is less than `b` but not than itself. -/
theorem countP_lt (h : Consistent less xs) (ha : a ∈ xs) (hb : b ∈ xs) (hab : less a b = true) :
    xs.countP (less · a) < xs.countP (less · b) := by
  have hba := h.asymm a ha b hb hab
  obtain ⟨front, back, hxs⟩ := List.append_of_mem ha
  have hle (ys : List α) (hys : ys ⊆ xs) : ys.countP (less · a) ≤ ys.countP (less · b) :=
    List.countP_mono_left fun x hx ↦ h.less_of_less ha hb (hys hx) hba
  have hfront := hle front (by rw [hxs]; exact List.subset_append_left _ _)
  have hback := hle back (by
    rw [hxs]
    exact List.Subset.trans (List.subset_cons_self a back) (List.subset_append_right _ _))
  rw [hxs, List.countP_append, List.countP_append, List.countP_cons, List.countP_cons,
    h.irrefl ha, hab]
  simp only [Bool.false_eq_true, if_false, if_true]
  omega

end Consistent

/-! ### Ranks -/

section Ranks

variable [LinearOrder β] {rank : α → β} {a b : α}

/-- The comparison of elements of the list is that of their ranks. -/
def RankedBy (less : α → α → Bool) (rank : α → β) (all : List α) : Prop :=
  ∀ a ∈ all, ∀ b ∈ all, (less a b = true ↔ rank a < rank b)

/-- In the order of the ranks. -/
abbrev Ordered (rank : α → β) (xs : List α) : Prop := xs.Pairwise fun a b ↦ rank a ≤ rank b

/-- Ranks read backwards. -/
abbrev reversed (rank : α → β) : α → βᵒᵈ := OrderDual.toDual ∘ rank

namespace RankedBy

/-- An element that is not less has no lower rank. -/
theorem eq_false_iff (h : RankedBy less rank all) (ha : a ∈ all) (hb : b ∈ all) :
    less a b = false ↔ rank b ≤ rank a := by
  rw [← Bool.not_eq_true, h a ha b hb, not_lt]

theorem mono (h : RankedBy less rank all) (hsub : xs ⊆ all) : RankedBy less rank xs :=
  fun a ha b hb ↦ h a (hsub ha) b (hsub hb)

theorem dual (h : RankedBy less rank all) :
    RankedBy (fun b a ↦ less a b) (reversed rank) all :=
  fun a ha b hb ↦ h b hb a ha

end RankedBy

/-- A list in order is one backwards from its end. -/
theorem ordered_reverse : Ordered (reversed rank) xs.reverse ↔ Ordered rank xs :=
  List.pairwise_reverse

end Ranks

/-- A consistent comparison is that of the numbers of elements that are less. -/
theorem Consistent.exists_ranked (h : Consistent less xs) :
    ∃ rank : α → ℕ, RankedBy less rank xs := by
  refine ⟨fun a ↦ xs.countP (less · a), fun a ha b hb ↦ ⟨h.countP_lt ha hb, fun hlt ↦ ?_⟩⟩
  by_contra hab
  rw [Bool.not_eq_true] at hab
  refine hlt.not_ge (List.countP_mono_left fun x hx ↦ ?_)
  exact h.less_of_less hb ha hx hab

/-- The elements of a list in another order. -/
theorem subset_of_perm (h : ys ~ xs) (hxs : xs ⊆ all) : ys ⊆ all :=
  List.Subset.trans h.subset hxs

/-! ### Insertion -/

section Insertion

variable [LinearOrder β] {rank : α → β} {x : α}

theorem ordered_insertDown (hless : RankedBy less rank all) (hx : x ∈ all) (hys : ys ⊆ all)
    (h : Ordered (reversed rank) ys) : Ordered (reversed rank) (insertDown less x ys) := by
  induction ys with
  | nil => exact List.pairwise_singleton _ x
  | cons y ys ih =>
      obtain ⟨hy, hrest⟩ := List.cons_subset.mp hys
      obtain ⟨hmost, hordered⟩ := List.pairwise_cons.mp h
      rw [insertDown]
      split
      case isTrue hlt =>
        refine List.pairwise_cons.mpr ⟨fun z hz ↦ ?_, ih hrest hordered⟩
        rcases List.mem_cons.mp ((insertDown_perm less x ys).mem_iff.mp hz) with rfl | hz
        · exact ((hless z hx y hy).mp hlt).le
        · exact hmost z hz
      case isFalse hge =>
        have hyx : rank y ≤ rank x := not_lt.mp (mt (hless x hx y hy).mpr hge)
        refine List.pairwise_cons.mpr ⟨fun z hz ↦ ?_, h⟩
        rcases List.mem_cons.mp hz with rfl | hz
        · exact hyx
        · exact (show rank z ≤ rank y from hmost z hz).trans hyx

theorem ordered_foldl_insertDown (hless : RankedBy less rank all) (hxs : xs ⊆ all) (hys : ys ⊆ all)
    (h : Ordered (reversed rank) ys) :
    Ordered (reversed rank) (xs.foldl (fun ys x ↦ insertDown less x ys) ys) := by
  induction xs generalizing ys with
  | nil => exact h
  | cons x xs ih =>
      obtain ⟨hx, hxs⟩ := List.cons_subset.mp hxs
      refine ih hxs ?_ (ordered_insertDown hless hx hys h)
      exact subset_of_perm (insertDown_perm less x ys) (List.cons_subset.mpr ⟨hx, hys⟩)

theorem ordered_insertAll (hless : RankedBy less rank all) (hxs : xs ⊆ all) (hys : ys ⊆ all)
    (h : Ordered rank ys) : Ordered rank (insertAll less ys xs) := by
  rw [← ordered_reverse, insertAll, List.reverse_reverse]
  exact ordered_foldl_insertDown hless hxs (subset_of_perm (List.reverse_perm ys) hys)
    (ordered_reverse.mpr h)

end Insertion

/-! ### Merging from one end -/

section Merging

variable [LinearOrder β] {rank : α → β}

theorem ordered_merge_front {le : α → α → Bool}
    (hle : ∀ a ∈ all, ∀ b ∈ all, (le a b = true ↔ rank a ≤ rank b)) (hxs : xs ⊆ all)
    (hys : ys ⊆ all) (hx : Ordered rank xs) (hy : Ordered rank ys) :
    Ordered rank (xs.merge ys le) := by
  induction xs generalizing ys with
  | nil => rwa [List.nil_merge]
  | cons x xs ih =>
      induction ys with
      | nil => rwa [List.merge_right]
      | cons y ys ih' =>
          obtain ⟨hxall, hxs'⟩ := List.cons_subset.mp hxs
          obtain ⟨hyall, hys'⟩ := List.cons_subset.mp hys
          obtain ⟨hleastx, hx'⟩ := List.pairwise_cons.mp hx
          obtain ⟨hleasty, hy'⟩ := List.pairwise_cons.mp hy
          rw [List.cons_merge_cons]
          split
          case isTrue hxy =>
            have hxy := (hle x hxall y hyall).mp hxy
            refine List.pairwise_cons.mpr ⟨fun z hz ↦ ?_, ih hxs' hys hx' hy⟩
            rcases List.mem_merge.mp hz with hz | hz
            · exact hleastx z hz
            · rcases List.mem_cons.mp hz with rfl | hz
              · exact hxy
              · exact hxy.trans (hleasty z hz)
          case isFalse hxy =>
            have hyx := (not_le.mp (mt (hle x hxall y hyall).mpr hxy)).le
            refine List.pairwise_cons.mpr ⟨fun z hz ↦ ?_, ih' hys' hy'⟩
            rcases List.mem_merge.mp hz with hz | hz
            · rcases List.mem_cons.mp hz with rfl | hz
              · exact hyx
              · exact hyx.trans (hleastx z hz)
            · exact hleasty z hz

/-- Lists in order are merged to one, from whichever end the merge begins. -/
theorem ordered_merge (hless : RankedBy less rank all) (hxs : xs ⊆ all) (hys : ys ⊆ all)
    (hx : Ordered rank xs) (hy : Ordered rank ys) : Ordered rank (merge less xs ys) := by
  rw [merge]
  split
  · have hle : ∀ a ∈ all, ∀ b ∈ all, (!less b a) = true ↔ rank a ≤ rank b := by
      intro a ha b hb
      rw [Bool.not_eq_true', hless.eq_false_iff hb ha]
    exact ordered_merge_front hle hxs hys hx hy
  · have hge : ∀ b ∈ all, ∀ a ∈ all, (!less b a) = true ↔ reversed rank b ≤ reversed rank a := by
      intro b hb a ha
      rw [Bool.not_eq_true', hless.eq_false_iff hb ha]
      rfl
    rw [← ordered_reverse, List.reverse_reverse]
    exact ordered_merge_front hge (subset_of_perm (List.reverse_perm ys) hys)
      (subset_of_perm (List.reverse_perm xs) hxs) (ordered_reverse.mpr hy) (ordered_reverse.mpr hx)

end Merging

/-! ### A network -/

section Network

variable [LinearOrder β] {rank : α → β} {a b c d : α}

theorem ordered_pair (hless : RankedBy less rank [a, b]) : Ordered rank (pair less a b) := by
  have hab := hless b (by simp) a (by simp)
  rw [pair]
  split
  case isTrue hlt => exact List.pairwise_pair.mpr (hab.mp hlt).le
  case isFalse hge => exact List.pairwise_pair.mpr (not_lt.mp (mt hab.mpr hge))

/-- An exchange of the network puts two elements in order. -/
theorem exists_exchanged_ordered (hless : RankedBy less rank [a, b]) :
    ∃ x y, (if less b a then (b, a) else (a, b)) = (x, y) ∧ [x, y] ~ [a, b] ∧ rank x ≤ rank y := by
  have hab := hless b (by simp) a (by simp)
  split
  case isTrue hlt => exact ⟨b, a, rfl, .swap a b [], (hab.mp hlt).le⟩
  case isFalse hge => exact ⟨a, b, rfl, .refl _, not_lt.mp (mt hab.mpr hge)⟩

/-- Two elements in order between two others. -/
theorem ordered_pair_between (hless : RankedBy less rank [b, c]) (hab : rank a ≤ rank b)
    (hac : rank a ≤ rank c) (hbd : rank b ≤ rank d) (hcd : rank c ≤ rank d) :
    Ordered rank (a :: pair less b c ++ [d]) := by
  have hmem {z : α} (hz : z ∈ pair less b c) : z = b ∨ z = c := by
    simpa using (pair_perm less b c).mem_iff.mp hz
  refine List.pairwise_cons.mpr ⟨fun z hz ↦ ?_, List.pairwise_append.mpr ⟨ordered_pair hless,
    List.pairwise_singleton _ d, fun z hz w hw ↦ ?_⟩⟩
  · rcases List.mem_append.mp hz with hz | hz
    · rcases hmem hz with rfl | rfl
      · exact hab
      · exact hac
    · rw [List.mem_singleton.mp hz]
      exact hab.trans hbd
  · rw [List.mem_singleton.mp hw]
    rcases hmem hz with rfl | rfl
    · exact hbd
    · exact hcd

theorem ordered_four (hless : RankedBy less rank [a, b, c, d]) :
    Ordered rank (four less a b c d) := by
  have hab : RankedBy less rank [a, b] := hless.mono (by simp)
  have hcd : RankedBy less rank [c, d] := hless.mono (by simp)
  obtain ⟨x, y, hxy, hfirst, hle⟩ := exists_exchanged_ordered hab
  obtain ⟨z, w, hzw, hsecond, hle'⟩ := exists_exchanged_ordered hcd
  -- The elements after the two exchanges, of which the network compares the first and the last two.
  have hless' : RankedBy less rank [x, y, z, w] := hless.mono (hfirst.append hsecond).subset
  have hzx := hless' z (by simp) x (by simp)
  have hwy := hless' w (by simp) y (by simp)
  simp only [four, hxy, hzw]
  split
  case h_1 hx hw =>
    rw [← Bool.not_eq_true, hzx, not_lt] at hx
    rw [← Bool.not_eq_true, hwy, not_lt] at hw
    exact ordered_pair_between (hless'.mono (by simp)) hle hx hw hle'
  case h_2 hx hw =>
    rw [← Bool.not_eq_true, hzx, not_lt] at hx
    rw [hwy] at hw
    exact ordered_pair_between (hless'.mono (by simp)) hx (hx.trans hle') (hle'.trans hw.le) hw.le
  case h_3 hx hw =>
    rw [hzx] at hx
    rw [← Bool.not_eq_true, hwy, not_lt] at hw
    exact ordered_pair_between (hless'.mono (by simp)) hx.le (hx.le.trans hle) (hle.trans hw) hw
  case h_4 hx hw =>
    rw [hzx] at hx
    rw [hwy] at hw
    exact ordered_pair_between (hless'.mono (by simp)) hx.le hle' hle hw.le

end Network

end Sorting

end ZPlane
