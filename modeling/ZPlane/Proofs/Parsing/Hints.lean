import Mathlib
import ZPlane.Parsing.Hints

/-!
# Laws of hints

A tree of hints stands for the list of its leaves, and `join` appends two lists.  `deepest` may drop
hints, but none that reaches as far as those that it keeps, so the furthest offset of either is the
greater one of its two sides.  In a tree that is made of leaves by these two, the offset that is
remembered at a node is the greatest of the leaves below it (`Exact`), so that a search for an
offset finds all of its leaves.
-/

namespace ZPlane

namespace Parsing

/-- The maximum of two lists together is that of their maxima. -/
theorem max?_append (as bs : List Nat) : (as ++ bs).max? = max as.max? bs.max? := by
  induction as with
  | nil => simp
  | cons a as ih =>
      rw [List.cons_append, List.max?_cons, List.max?_cons, ih]
      cases as.max? <;> cases bs.max? <;> simp [Nat.max_assoc]

namespace Hints

variable {a b : Hints} {n : Nat}

/-! ### The furthest offset -/

/-- Joined hints go as far as the one that goes further. -/
theorem furthest?_join (a b : Hints) : (a.join b).furthest? = max a.furthest? b.furthest? := by
  cases a <;> cases b <;> rfl

/-- Nothing is added by no hints. -/
theorem join_empty (a : Hints) : a.join empty = a := by cases a <;> rfl

/-- What is dropped does not reach as far as what is kept. -/
theorem deepest_cases (a b : Hints) : a.deepest b = a.join b ∨
    (a.deepest b = a ∧ max a.furthest? b.furthest? = a.furthest?) ∨
    (a.deepest b = b ∧ max a.furthest? b.furthest? = b.furthest?) := by
  unfold deepest
  split
  · rename_i m n hm hn
    rw [hm, hn]
    split
    · exact .inr (.inl ⟨rfl, congrArg some (Nat.max_eq_left (Nat.le_of_lt ‹_›))⟩)
    · split
      · exact .inr (.inr ⟨rfl, congrArg some (Nat.max_eq_right (Nat.le_of_lt ‹_›))⟩)
      · exact .inl rfl
  · exact .inl rfl

/-- The furthest offset is not lost where the shallower hints are dropped. -/
theorem furthest?_deepest (a b : Hints) :
    (a.deepest b).furthest? = max a.furthest? b.furthest? := by
  rcases deepest_cases a b with h | ⟨h, hmax⟩ | ⟨h, hmax⟩
  · rw [h, furthest?_join]
  · rw [h, hmax]
  · rw [h, hmax]

/-! ### The leaves -/

/-- The walk adds its leaves in front of those it is given. -/
theorem reaching_eq_append (offset : Nat) (h : Hints) (after : List (Nat × Option String)) :
    h.reaching offset after = h.reaching offset [] ++ after := by
  induction h generalizing after with
  | empty => rfl
  | leaf n label =>
      simp only [reaching]
      split
      · rfl
      · rfl
  | node furthest l r ihl ihr =>
      simp only [reaching]
      split
      · rfl
      · rw [ihl, ihr, ihl (reaching offset r []), List.append_assoc]

/-- The leaves of a node are those of its left side, then those of its right one. -/
theorem toList_node (furthest : Nat) (l r : Hints) :
    (node furthest l r).toList = l.toList ++ r.toList := by
  rw [toList, reaching, if_neg (Nat.not_lt_zero _), reaching_eq_append]
  rfl

/-- Joined hints have the leaves of both, in order. -/
theorem toList_join (a b : Hints) : (a.join b).toList = a.toList ++ b.toList := by
  cases a with
  | empty => rfl
  | leaf _ _ | node _ _ _ =>
      cases b with
      | empty => exact (List.append_nil _).symm
      | leaf _ _ | node _ _ _ => exact toList_node _ _ _

/-- The offsets of the leaves, from left to right. -/
def offsets (h : Hints) : List Nat := h.toList.map Prod.fst

@[simp] theorem offsets_empty : offsets empty = [] := rfl

@[simp] theorem offsets_leaf (n : Nat) (label : Option String) : (leaf n label).offsets = [n] := rfl

@[simp] theorem offsets_expected (n : Nat) (label : String) :
    (expected n label).offsets = [n] := rfl

@[simp] theorem offsets_mark (n : Nat) : (mark n).offsets = [n] := rfl

theorem offsets_node (furthest : Nat) (l r : Hints) :
    (node furthest l r).offsets = l.offsets ++ r.offsets := by
  rw [offsets, toList_node, List.map_append, offsets, offsets]

@[simp] theorem offsets_join (a b : Hints) : (a.join b).offsets = a.offsets ++ b.offsets := by
  rw [offsets, toList_join, List.map_append]
  rfl

/-- Each hint that is kept is one of the two sides'. -/
theorem mem_offsets_deepest (h : n ∈ (a.deepest b).offsets) : n ∈ a.offsets ∨ n ∈ b.offsets := by
  rcases deepest_cases a b with hd | ⟨hd, -⟩ | ⟨hd, -⟩
  · rwa [hd, offsets_join, List.mem_append] at h
  · exact .inl (hd ▸ h)
  · exact .inr (hd ▸ h)

/-- Of two failures with hints at least one keeps them. -/
theorem offsets_deepest_ne_nil (ha : a.offsets ≠ []) (hb : b.offsets ≠ []) :
    (a.deepest b).offsets ≠ [] := by
  rcases deepest_cases a b with h | ⟨h, -⟩ | ⟨h, -⟩
  · rw [h, offsets_join]
    exact List.append_ne_nil_of_left_ne_nil ha _
  · rwa [h]
  · rwa [h]

/-- The labels of the leaves at the offset, from left to right. -/
def labelled (n : Nat) (leaves : List (Nat × Option String)) : List String :=
  leaves.filterMap fun (m, label) ↦ if m = n then label else none

theorem labelled_append (n : Nat) (as bs : List (Nat × Option String)) :
    labelled n (as ++ bs) = labelled n as ++ labelled n bs := List.filterMap_append

/-- The labels at an offset are those of the leaves there. -/
theorem mem_labelled {leaves : List (Nat × Option String)} {label : String} :
    label ∈ labelled n leaves ↔ (n, some label) ∈ leaves := by
  rw [labelled, List.mem_filterMap]
  constructor
  · rintro ⟨⟨m, l⟩, hx, hl⟩
    dsimp only at hl
    split at hl
    · rename_i hm
      obtain rfl : m = n := hm
      obtain rfl : l = some label := hl
      exact hx
    · cases hl
  · intro hx
    exact ⟨(n, some label), hx, if_pos rfl⟩

/-! ### Remembered offsets -/

/-- Every node of the tree remembers the greater of the offsets of its sides. -/
def Exact : Hints → Prop
  | .empty | .leaf _ _ => True
  | .node furthest l r => some furthest = max l.furthest? r.furthest? ∧ l.Exact ∧ r.Exact

namespace Exact

theorem empty : Exact empty := trivial

theorem leaf (n : Nat) (label : Option String) : Exact (leaf n label) := trivial

theorem join (ha : a.Exact) (hb : b.Exact) : (a.join b).Exact := by
  cases a with
  | empty => exact hb
  | leaf _ _ | node _ _ _ =>
      cases b with
      | empty => exact ha
      | leaf _ _ | node _ _ _ => exact ⟨rfl, ha, hb⟩

theorem deepest (ha : a.Exact) (hb : b.Exact) : (a.deepest b).Exact := by
  rcases deepest_cases a b with h | ⟨h, -⟩ | ⟨h, -⟩
  · rw [h]
    exact ha.join hb
  · rwa [h]
  · rwa [h]

/-- The offset that the tree remembers is the greatest of its leaves. -/
theorem furthest?_eq (h : a.Exact) : a.furthest? = a.offsets.max? := by
  induction a with
  | empty => rfl
  | leaf n label => rfl
  | node furthest l r ihl ihr =>
      obtain ⟨hfurthest, hl, hr⟩ := h
      rw [furthest?, hfurthest, ihl hl, ihr hr, offsets_node, max?_append]

/-- The furthest offset is one of the hints'. -/
theorem mem_offsets (h : a.Exact) (hn : a.furthest? = some n) : n ∈ a.offsets :=
  List.max?_mem (h.furthest?_eq.symm.trans hn)

/-- No hint is further than the furthest. -/
theorem le_furthest (h : a.Exact) {furthest : Nat} (hf : a.furthest? = some furthest)
    (hn : n ∈ a.offsets) : n ≤ furthest :=
  (List.max?_eq_some_iff.mp (h.furthest?_eq.symm.trans hf)).2 n hn

/-- If there is a hint, there is a furthest one. -/
theorem exists_furthest (h : a.Exact) (hne : a.offsets ≠ []) : ∃ n, a.furthest? = some n := by
  refine Option.ne_none_iff_exists'.mp ?_
  rw [h.furthest?_eq, ne_eq, List.max?_eq_none_iff]
  exact hne

/-- The trees that are skipped have no leaf that is looked for. -/
theorem reaching_eq_filter (h : a.Exact) (n : Nat) :
    a.reaching n [] = a.toList.filter fun x ↦ n ≤ x.1 := by
  induction a with
  | empty => rfl
  | leaf m label =>
      rw [toList, reaching, reaching, if_neg (Nat.not_lt_zero m)]
      split
      · simp [*]
      · simp [Nat.le_of_not_lt ‹_›]
  | node furthest l r ihl ihr =>
      obtain ⟨-, hl, hr⟩ := id h
      rw [reaching]
      split
      · rename_i hlt
        refine (List.filter_eq_nil_iff.mpr fun x hx hle ↦ ?_).symm
        have hreach := h.le_furthest rfl (List.mem_map_of_mem hx)
        exact absurd (hreach.trans_lt hlt) (of_decide_eq_true hle).not_gt
      · rw [reaching_eq_append, ihl hl, ihr hr, toList_node, List.filter_append]

/-- The search for an offset finds all of its labels. -/
theorem labelsAt_eq (h : a.Exact) (n : Nat) : a.labelsAt n = (labelled n a.toList).eraseDups := by
  rw [labelsAt, h.reaching_eq_filter, List.filterMap_filter]
  refine congrArg List.eraseDups (List.filterMap_congr fun x _ ↦ ?_)
  obtain ⟨m, label⟩ := x
  by_cases hm : m = n
  · simp [hm]
  · simp [hm]

/-- The labels at an offset are those of its leaves. -/
theorem mem_labelsAt (h : a.Exact) {label : String} :
    label ∈ a.labelsAt n ↔ (n, some label) ∈ a.toList := by
  rw [h.labelsAt_eq, List.mem_eraseDups, mem_labelled]

end Exact

theorem nodup_eraseDups {α : Type} [BEq α] [LawfulBEq α] (as : List α) : as.eraseDups.Nodup := by
  induction hk : as.length using Nat.strong_induction_on generalizing as with
  | _ k ih =>
      cases as with
      | nil => exact List.nodup_nil
      | cons a as =>
          rw [List.eraseDups_cons, List.nodup_cons]
          constructor
          · simp [List.mem_eraseDups]
          · refine ih _ ?_ _ rfl
            rw [← hk]
            exact Nat.lt_succ_of_le (List.length_filter_le _ _)

/-- No label is given twice. -/
theorem nodup_labelsAt (n : Nat) (h : Hints) : (h.labelsAt n).Nodup := nodup_eraseDups _

end Hints

end Parsing

end ZPlane
