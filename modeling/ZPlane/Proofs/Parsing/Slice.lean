import Mathlib
import ZPlane.Proofs.Parsing.Token

/-!
# Slices of a text

The bytes between two places that a run passes are whole characters of the text, those that were
read between them.
-/

namespace ZPlane

namespace Text

/-- Trimming takes off the blanks behind a text that neither begins nor ends with one. -/
theorem trim_append {v bs : List Char} (hfirst : skip v = v) (hlast : Leaves v [])
    (hbs : ∀ c ∈ bs, isBlank c = true) : trim (v ++ bs) = v := by
  have hskip : skip (v ++ bs) = v ++ bs := by
    cases v with
    | nil => exact absurd hlast.length_lt (lt_irrefl _)
    | cons c v => exact skip_cons_of_not_isBlank (isBlank_of_skip hfirst) (v ++ bs)
  obtain ⟨w, d, hd, rfl⟩ := hlast
  have hbs' : ∀ c ∈ bs.reverse, isBlank c = true := fun c hc ↦ hbs c (List.mem_reverse.mp hc)
  rw [skip] at hskip
  rw [trim, hskip, List.reverse_append, List.dropWhile_append_of_pos hbs',
    List.reverse_append, List.reverse_singleton, List.singleton_append,
    List.dropWhile_cons_of_neg (by simp [hd]), List.reverse_cons, List.reverse_reverse]

end Text

namespace Parsing

open Text (byteLength)

/-- A character ahead of an offset is passed with all its bytes. -/
theorem exists_succ_byteLength (c : Char) (w : List Char) :
    ∃ n, byteLength (c :: w) = n + 1 ∧ c.utf8Size ≤ n + 1 ∧ n + 1 - c.utf8Size = byteLength w := by
  have := c.utf8Size_pos
  refine ⟨byteLength (c :: w) - 1, ?_, ?_, ?_⟩ <;> rw [Text.byteLength_cons] <;> omega

/-- Behind a prefix the rest is left. -/
theorem after_byteLength (w r : List Char) :
    Remainder.after (w ++ r) (byteLength w) = .chars r := by
  induction w with
  | nil => exact Cursor.rest_ofText_zero r
  | cons c w ih =>
      obtain ⟨n, hn, hle, hsub⟩ := exists_succ_byteLength c w
      rw [hn, List.cons_append, Remainder.after, if_pos hle, hsub, ih]

/-- Up to the end of a prefix there is the prefix. -/
theorem upTo?_byteLength (w r : List Char) : upTo? (w ++ r) (byteLength w) = some w := by
  induction w with
  | nil => cases r <;> rfl
  | cons c w ih =>
      obtain ⟨n, hn, hle, hsub⟩ := exists_succ_byteLength c w
      rw [hn, List.cons_append, upTo?, if_pos hle, hsub, ih]
      rfl

/-- The slice between two places of a text. -/
theorem slice_eq_trim (u w r : List Char) :
    Span.slice ⟨byteLength u, byteLength u + byteLength w⟩ (u ++ (w ++ r)) = Text.trim w := by
  rw [Span.slice, if_neg (by simp), Cursor.ofText, after_byteLength]
  simp only [Cursor.chars?, Nat.add_sub_cancel_left, upTo?_byteLength, Option.getD_some]

end Parsing

end ZPlane
