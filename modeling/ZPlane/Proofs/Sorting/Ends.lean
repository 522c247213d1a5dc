import Mathlib
import ZPlane.Proofs.Sorting.Ranks

/-!
# Merging from both ends

Both ends of a merge take the same number of elements.  If the comparison is that of ranks, what is
taken at the front is not greater than what is left, and what is taken at the back is not less.  So
no element is taken at both ends while another is taken at neither, and the ends meet
(`exists_middles`): a merge from both ends always succeeds, and with it the sorting of short lists.
-/

open scoped List

namespace ZPlane

namespace Sorting

variable {α β : Type} [LinearOrder β] {less : α → α → Bool} {rank : α → β} {all : List α}

/-! ### One end -/

section Front

variable {as bs taken left right left' right' : List α} {a b : α} {n : ℕ}

/-- What a merge takes from the front: `as` of the first list and `bs` of the second one.  An
element of the second list is taken only if it is less than what is left of the first. -/
structure Taken (rank : α → β) (as bs taken left' right' : List α) : Prop where
  perm : taken ~ as ++ bs
  ordered : Ordered rank taken
  le_left : ∀ z ∈ taken, ∀ x ∈ left', rank z ≤ rank x
  le_right : ∀ z ∈ taken, ∀ y ∈ right', rank z ≤ rank y
  lt_left : ∀ b ∈ bs, ∀ x ∈ left', rank b < rank x

namespace Taken

theorem none (rank : α → β) (left' right' : List α) : Taken rank [] [] [] left' right' where
  perm := .refl _
  ordered := .nil
  le_left _ h := absurd h List.not_mem_nil
  le_right _ h := absurd h List.not_mem_nil
  lt_left _ h := absurd h List.not_mem_nil

/-- The next element of the first list is taken if nothing that is left is less. -/
theorem cons_left (h : Taken rank as bs taken left' right')
    (hleft : ∀ x ∈ as ++ left', rank a ≤ rank x) (hright : ∀ y ∈ bs ++ right', rank a ≤ rank y) :
    Taken rank (a :: as) bs (a :: taken) left' right' where
  perm := h.perm.cons a
  ordered := by
    refine List.pairwise_cons.mpr ⟨fun z hz ↦ ?_, h.ordered⟩
    rcases List.mem_append.mp (h.perm.mem_iff.mp hz) with hz | hz
    · exact hleft z (List.mem_append_left _ hz)
    · exact hright z (List.mem_append_left _ hz)
  le_left z hz x hx := by
    rcases List.mem_cons.mp hz with rfl | hz
    · exact hleft x (List.mem_append_right _ hx)
    · exact h.le_left z hz x hx
  le_right z hz y hy := by
    rcases List.mem_cons.mp hz with rfl | hz
    · exact hright y (List.mem_append_right _ hy)
    · exact h.le_right z hz y hy
  lt_left := h.lt_left

/-- The next element of the second list is taken if it is less than what is left of the first. -/
theorem cons_right (h : Taken rank as bs taken left' right')
    (hleft : ∀ x ∈ as ++ left', rank b < rank x) (hright : ∀ y ∈ bs ++ right', rank b ≤ rank y) :
    Taken rank as (b :: bs) (b :: taken) left' right' where
  perm := (h.perm.cons b).trans List.perm_middle.symm
  ordered := (h.cons_left (fun x hx ↦ (hleft x hx).le) hright).ordered
  le_left := (h.cons_left (fun x hx ↦ (hleft x hx).le) hright).le_left
  le_right := (h.cons_left (fun x hx ↦ (hleft x hx).le) hright).le_right
  lt_left z hz x hx := by
    rcases List.mem_cons.mp hz with rfl | hz
    · exact hleft x (List.mem_append_right _ hx)
    · exact h.lt_left z hz x hx

end Taken

/-- A merge takes the least elements, from the front of both lists. -/
theorem exists_taken (hless : RankedBy less rank all)
    (h : mergeFirst less n left right = (taken, left', right')) (hleft : left ⊆ all)
    (hright : right ⊆ all) (hl : Ordered rank left) (hr : Ordered rank right) :
    ∃ as bs, left = as ++ left' ∧ right = bs ++ right' ∧ Taken rank as bs taken left' right' := by
  fun_induction mergeFirst less n left right generalizing taken left' right' with
  | case1 n a left b right hba _ _ _ hrest ih =>
      cases h
      obtain ⟨hb, hright⟩ := List.cons_subset.mp hright
      obtain ⟨hleastb, hr⟩ := List.pairwise_cons.mp hr
      obtain ⟨as, bs, has, hbs, htaken⟩ := ih hrest hleft hright hl hr
      have hlt : rank b < rank a := (hless b hb a (hleft List.mem_cons_self)).mp hba
      refine ⟨as, b :: bs, has, congrArg (b :: ·) hbs, htaken.cons_right (fun x hx ↦ ?_) ?_⟩
      · rw [← has] at hx
        rcases List.mem_cons.mp hx with rfl | hx
        · exact hlt
        · exact hlt.trans_le (List.rel_of_pairwise_cons hl hx)
      · rwa [← hbs]
  | case2 n a left b right hba _ _ _ hrest ih =>
      cases h
      obtain ⟨ha, hleft⟩ := List.cons_subset.mp hleft
      obtain ⟨hleasta, hl⟩ := List.pairwise_cons.mp hl
      obtain ⟨as, bs, has, hbs, htaken⟩ := ih hrest hleft hright hl hr
      have hle : rank a ≤ rank b :=
        not_lt.mp (mt (hless b (hright List.mem_cons_self) a ha).mpr hba)
      refine ⟨a :: as, bs, congrArg (a :: ·) has, hbs, htaken.cons_left ?_ fun y hy ↦ ?_⟩
      · rwa [← has]
      · rw [← hbs] at hy
        rcases List.mem_cons.mp hy with rfl | hy
        · exact hle
        · exact hle.trans (List.rel_of_pairwise_cons hr hy)
  | case3 =>
      cases h
      exact ⟨[], [], rfl, rfl, .none rank _ _⟩

end Front

/-! ### Both ends -/

section Middles

variable {as bs cs ds front back left right left' right' left'' right'' mid : List α} {n : ℕ}

/-- Two cuts of a list leave a middle between them, or they overlap. -/
theorem middle_or_overlap {rest behind : List α} (h : as ++ rest = behind ++ ds) :
    (∃ mid, behind = as ++ mid ∧ rest = mid ++ ds) ∨
      (∃ z ∈ as, z ∈ ds) ∧ (as ++ rest).length < as.length + ds.length := by
  rcases List.append_eq_append_iff.mp h with ⟨mid, hbehind, hrest⟩ | ⟨shared, has, hds⟩
  · exact .inl ⟨mid, hbehind, hrest⟩
  · cases shared with
    | nil => exact .inl ⟨[], by simpa using has.symm, by simpa using hds.symm⟩
    | cons z shared =>
        refine .inr ⟨⟨z, by simp [has], by simp [hds]⟩, ?_⟩
        rw [hds]
        simp only [List.length_append, List.length_cons]
        omega

/-- What is left between the ends of both lists. -/
structure Between (as bs cs ds left' right' left'' right'' mid mid' : List α) : Prop where
  left' : left' = mid ++ ds.reverse
  left'' : left''.reverse = as ++ mid
  right' : right' = mid' ++ cs.reverse
  right'' : right''.reverse = bs ++ mid'

/-- The middles make up what the second list has more than the first. -/
theorem Between.lengths {mid' : List α} (h : Between as bs cs ds left' right' left'' right'' mid mid')
    (hfront : Taken rank as bs front left' right')
    (hback : Taken (reversed rank) cs ds back right'' left'') (hleft : left = as ++ left')
    (hright : right = bs ++ right') (hfrontCount : front.length = left.length)
    (hbackCount : back.length = left.length) :
    left.length = as.length + mid.length + ds.length ∧ left'.length = mid.length + ds.length ∧
      left''.length = as.length + mid.length ∧
      right.length = left.length + mid.length + mid'.length := by
  have hcount := hfront.perm.length_eq
  have hcount' := hback.perm.length_eq
  have hbefore := congrArg List.length h.left'
  have hbehind := congrArg List.length h.left''
  have hrest := congrArg List.length h.right'
  have hwhole := congrArg List.length hleft
  have hwhole' := congrArg List.length hright
  rw [List.length_append] at hcount hcount' hwhole hwhole'
  rw [List.length_append, List.length_reverse] at hbefore hrest
  rw [List.length_reverse, List.length_append] at hbehind
  omega

/-- If an element is taken at both ends, one of the other list is taken at neither, which contradicts
the order.  So the ends do not cross in either list. -/
theorem exists_middles (hfront : Taken rank as bs front left' right')
    (hback : Taken (reversed rank) cs ds back right'' left'') (hleft : left = as ++ left')
    (hright : right = bs ++ right') (hleft' : left.reverse = ds ++ left'')
    (hright' : right.reverse = cs ++ right'') (hfrontCount : front.length = left.length)
    (hbackCount : back.length = left.length) (hle : left.length ≤ right.length) :
    ∃ mid mid', Between as bs cs ds left' right' left'' right'' mid mid' := by
  have hcount := hfront.perm.length_eq
  have hcount' := hback.perm.length_eq
  have hcut : as ++ left' = left''.reverse ++ ds.reverse := by
    rw [← hleft, ← List.reverse_append, ← hleft', List.reverse_reverse]
  have hcut' : bs ++ right' = right''.reverse ++ cs.reverse := by
    rw [← hright, ← List.reverse_append, ← hright', List.reverse_reverse]
  simp only [List.length_append] at hcount hcount'
  have hfew := middle_or_overlap hcut
  have hfew' := middle_or_overlap hcut'
  rw [← hleft, List.length_reverse] at hfew
  rw [← hright, List.length_reverse] at hfew'
  rcases hfew with ⟨mid, hm, hm'⟩ | ⟨⟨z, hz, hz'⟩, hmany⟩
  · rcases hfew' with ⟨mid', hn, hn'⟩ | ⟨⟨z, hz, hz'⟩, hmany⟩
    · exact ⟨mid, mid', hm', hm, hn', hn⟩
    · -- `z` is taken twice from the second list, and `y` of the first one is not taken.
      have hlength := congrArg List.length hleft
      rw [hm'] at hlength
      simp only [List.length_append, List.length_reverse] at hlength
      obtain ⟨y, hy⟩ := List.exists_mem_of_length_pos (l := mid) (by omega)
      have hlt : rank z < rank y := hfront.lt_left z hz y (by simp [hm', hy])
      have hle : rank y ≤ rank z := hback.le_right z (hback.perm.mem_iff.mpr
        (List.mem_append_left _ (List.mem_reverse.mp hz'))) y (by
          rw [← List.mem_reverse, hm]
          exact List.mem_append_right _ hy)
      exact absurd hle hlt.not_ge
  · rcases hfew' with ⟨mid', hn, hn'⟩ | ⟨-, hmany'⟩
    · -- `z` is taken twice from the first list, and `y` of the second one is not taken.
      have hlength := congrArg List.length hright
      rw [hn'] at hlength
      simp only [List.length_append, List.length_reverse] at hlength
      obtain ⟨y, hy⟩ := List.exists_mem_of_length_pos (l := mid') (by omega)
      have hle : rank z ≤ rank y := hfront.le_right z (hfront.perm.mem_iff.mpr
        (List.mem_append_left _ hz)) y (by simp [hn', hy])
      have hlt : rank y < rank z := hback.lt_left z (List.mem_reverse.mp hz') y (by
        rw [← List.mem_reverse, hn]
        exact List.mem_append_right _ hy)
      exact absurd hle hlt.not_ge
    · omega

/-- What is taken at the front, something in order that is left by both ends, and what is taken at
the back are in order. -/
theorem ordered_ends {mid' inner : List α} (hfront : Taken rank as bs front left' right')
    (hback : Taken (reversed rank) cs ds back right'' left'')
    (hbetween : Between as bs cs ds left' right' left'' right'' mid mid')
    (hinner : Ordered rank inner) (hsub : inner ⊆ mid ∨ inner ⊆ mid') :
    Ordered rank (front ++ inner ++ back.reverse) := by
  have hmid {x : α} (hx : x ∈ mid) : x ∈ left' ∧ x ∈ left'' := by
    refine ⟨by simp [hbetween.left', hx], ?_⟩
    rw [← List.mem_reverse, hbetween.left'']
    exact List.mem_append_right _ hx
  have hmid' {y : α} (hy : y ∈ mid') : y ∈ right' ∧ y ∈ right'' := by
    refine ⟨by simp [hbetween.right', hy], ?_⟩
    rw [← List.mem_reverse, hbetween.right'']
    exact List.mem_append_right _ hy
  refine List.pairwise_append.mpr ⟨List.pairwise_append.mpr ⟨hfront.ordered, hinner, ?_⟩,
    List.pairwise_reverse.mpr hback.ordered, ?_⟩
  · intro z hz x hx
    rcases hsub with hsub | hsub
    · exact hfront.le_left z hz x (hmid (hsub hx)).1
    · exact hfront.le_right z hz x (hmid' (hsub hx)).1
  · intro z hz w hw
    have hw := List.mem_reverse.mp hw
    rcases List.mem_append.mp hz with hz | hz
    · rcases List.mem_append.mp (hback.perm.mem_iff.mp hw) with hw | hw
      · exact hfront.le_right z hz w (by simp [hbetween.right', hw])
      · exact hfront.le_left z hz w (by simp [hbetween.left', hw])
    · rcases hsub with hsub | hsub
      · exact hback.le_right w hw z (hmid (hsub hz)).2
      · exact hback.le_left w hw z (hmid' (hsub hz)).2

/-- A merge from both ends always succeeds. -/
theorem exists_mergeEnds? (hless : RankedBy less rank all) (hleft : left ⊆ all)
    (hright : right ⊆ all) (hl : Ordered rank left) (hr : Ordered rank right)
    (hle : left.length ≤ right.length) (hodd : right.length ≤ left.length + 1) :
    ∃ zs, mergeEnds? less left right = some zs ∧ Ordered rank zs := by
  rw [mergeEnds?]
  generalize hfront : mergeFirst less left.length left right = front
  obtain ⟨front, left', right'⟩ := front
  generalize hback : mergeFirst (fun b a ↦ less a b) left.length right.reverse left.reverse = back
  obtain ⟨back, right'', left''⟩ := back
  obtain ⟨as, bs, has, hbs, htaken⟩ := exists_taken hless hfront hleft hright hl hr
  obtain ⟨cs, ds, hcs, hds, htaken'⟩ := exists_taken hless.dual hback
    (subset_of_perm (List.reverse_perm right) hright) (subset_of_perm (List.reverse_perm left) hleft)
    (ordered_reverse.mpr hr) (ordered_reverse.mpr hl)
  have hfrontCount := length_of_mergeFirst hfront le_rfl hle
  have hbackCount := length_of_mergeFirst hback (by rwa [List.length_reverse])
    (by rw [List.length_reverse])
  obtain ⟨mid, mid', hbetween⟩ := exists_middles htaken htaken' has hbs hds hcs hfrontCount hbackCount
    hle
  obtain ⟨hlength, hlength', hbehind, hmiddles⟩ :=
    hbetween.lengths htaken htaken' has hbs hfrontCount hbackCount
  -- Between the ends there is one element if the second list is longer, and none otherwise.
  dsimp only
  split_ifs with hwhole hone
  · have hmid' : right'.take (right.length - left.length) = mid' := by
      rw [hbetween.right']
      exact List.take_left' (by omega)
    rw [hmid']
    refine ⟨_, rfl, ordered_ends htaken htaken' hbetween ?_ (.inr (List.Subset.refl _))⟩
    rw [hbs, hbetween.right'] at hr
    exact (List.pairwise_append.mp (List.pairwise_append.mp hr).2.1).1
  · have hmid : left'.take (right.length - left.length) = mid := by
      rw [hbetween.left']
      exact List.take_left' (by omega)
    rw [hmid]
    refine ⟨_, rfl, ordered_ends htaken htaken' hbetween ?_ (.inl (List.Subset.refl _))⟩
    rw [has, hbetween.left'] at hl
    exact (List.pairwise_append.mp (List.pairwise_append.mp hl).2.1).1
  · omega

end Middles

/-! ### Short lists -/

/-- The function puts every list of these elements in order. -/
def Orders (rank : α → β) (all : List α) (f : List α → Option (List α)) : Prop :=
  ∀ xs ⊆ all, ∃ ys, f xs = some ys ∧ Ordered rank ys

theorem orders_half? (hless : RankedBy less rank all) (n : ℕ) : Orders rank all (half? less n) := by
  intro xs hxs
  unfold half?
  split
  · rename_i a b c d e f g i xs
    have hfirst : [a, b, c, d] ⊆ all := by simp_all
    have hsecond : [e, f, g, i] ⊆ all := by simp_all
    have hrest : xs ⊆ all := by simp_all
    have hperm := four_perm less a b c d
    have hperm' := four_perm less e f g i
    have hfour := ordered_four (hless.mono hfirst)
    split
    · have hle : (four less a b c d).length ≤ (four less e f g i).length :=
        (hperm.length_eq.trans hperm'.length_eq.symm).le
      have hge : (four less e f g i).length ≤ (four less a b c d).length :=
        (hperm'.length_eq.trans hperm.length_eq.symm).le
      have hfours := subset_of_perm hperm hfirst
      have hfours' := subset_of_perm hperm' hsecond
      obtain ⟨zs, hzs, hordered⟩ := exists_mergeEnds? hless hfours hfours' hfour
        (ordered_four (hless.mono hsecond)) hle (Nat.le_succ_of_le hge)
      have hsub := subset_of_perm (mergeEnds?_perm hzs hle)
        (List.append_subset.mpr ⟨hfours, hfours'⟩)
      exact ⟨_, by rw [hzs]; rfl, ordered_insertAll hless hrest hsub hordered⟩
    · exact ⟨_, rfl, ordered_insertAll hless (by simp_all) (subset_of_perm hperm hfirst) hfour⟩
  · rename_i a b c d xs _
    have hfirst : [a, b, c, d] ⊆ all := by simp_all
    split
    · exact ⟨_, rfl, ordered_insertAll hless (by simp_all)
        (subset_of_perm (four_perm less a b c d) hfirst) (ordered_four (hless.mono hfirst))⟩
    · exact ⟨_, rfl, ordered_insertAll hless (by simp_all) (by simp_all)
        (List.pairwise_singleton _ a)⟩
  · exact ⟨_, rfl, ordered_insertAll hless hxs (List.nil_subset all) .nil⟩

theorem orders_short? (hless : RankedBy less rank all) : Orders rank all (short? less) := by
  intro xs hxs
  rw [short?]
  split
  case isTrue hshort =>
    refine ⟨xs, rfl, ?_⟩
    cases xs with
    | nil => exact .nil
    | cons x xs =>
        obtain rfl : xs = [] := List.eq_nil_of_length_eq_zero (by simpa using hshort)
        exact List.pairwise_singleton _ x
  case isFalse hlong =>
    have hfront : xs.take (xs.length / 2) ⊆ all := List.Subset.trans (List.take_subset _ xs) hxs
    have hback : xs.drop (xs.length / 2) ⊆ all := List.Subset.trans (List.drop_subset _ xs) hxs
    obtain ⟨left, hleft, hl⟩ := orders_half? hless xs.length _ hfront
    obtain ⟨right, hright, hr⟩ := orders_half? hless xs.length _ hback
    have hpermLeft := half?_perm less _ hleft
    have hpermRight := half?_perm less _ hright
    obtain ⟨zs, hzs, hordered⟩ := exists_mergeEnds? hless (subset_of_perm hpermLeft hfront)
      (subset_of_perm hpermRight hback) hl hr
      (by rw [hpermLeft.length_eq, hpermRight.length_eq, List.length_take, List.length_drop]; omega)
      (by rw [hpermLeft.length_eq, hpermRight.length_eq, List.length_take, List.length_drop]; omega)
    exact ⟨zs, by simp [hleft, hright, hzs], hordered⟩

end Sorting

end ZPlane
