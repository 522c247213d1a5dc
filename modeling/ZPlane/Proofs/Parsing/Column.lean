import Mathlib
import ZPlane.Proofs.Parsing.Location

/-!
# Columns of any offset

The column of an error is counted from the line break before it.  An error may be made with any
offset, and if that is inside a character, the line breaks of the whole text are looked at.  The
last one of these may be behind the offset, and then the error has no location.  This is so just if
the offset is inside a character and some line break comes after it (`location?_eq_none_iff`); of
all other errors the line and the column are within the text (`location_of_any_offset`).
-/

namespace ZPlane

namespace Parsing

open Text (byteLength)

variable {cs : List Char} {n : Nat}

/-- What is before an offset is a prefix with so many bytes. -/
theorem exists_of_upTo? {w : List Char} (h : upTo? cs n = some w) :
    ∃ r, cs = w ++ r ∧ byteLength w = n := by
  fun_induction upTo? cs n generalizing w with
  | case1 cs =>
      cases h
      exact ⟨cs, rfl, rfl⟩
  | case2 => cases h
  | case3 c cs n hle ih =>
      obtain ⟨v, hv, rfl⟩ := Option.map_eq_some_iff.mp h
      obtain ⟨r, rfl, hbytes⟩ := ih hv
      refine ⟨r, rfl, ?_⟩
      rw [Text.byteLength_cons, hbytes]
      exact Nat.add_sub_cancel' hle
  | case4 => cases h

/-- Nothing is before an offset that is no boundary. -/
theorem upTo?_eq_none_iff : upTo? cs n = none ↔ ¬ IsBoundary cs n := by
  constructor
  · rintro hnone ⟨w, r, rfl, rfl⟩
    rw [upTo?_byteLength] at hnone
    cases hnone
  · intro hinside
    cases h : upTo? cs n with
    | none => rfl
    | some w =>
        obtain ⟨r, hcs, hw⟩ := exists_of_upTo? h
        exact absurd ⟨w, r, hcs, hw⟩ hinside

/-- The end of a text is a boundary. -/
theorem isBoundary_byteLength (cs : List Char) : IsBoundary cs (byteLength cs) :=
  ⟨cs, [], (List.append_nil cs).symm, rfl⟩

namespace ParseError

variable {e : ParseError}

/-- The offset of the error, or the end of the text if that comes first. -/
def placeIn (e : ParseError) (cs : List Char) : Nat := min e.offset (byteLength cs)

/-- The text that is searched for line breaks: what is before the offset, or the whole text if the
offset is inside a character. -/
def searched (e : ParseError) (cs : List Char) : List Char := (upTo? cs (e.placeIn cs)).getD cs

/-- The offset behind the last line break that is found, from which the column is counted. -/
def lineStart (e : ParseError) (cs : List Char) : Nat :=
  match lastBreak? 0 (e.searched cs) with
  | some n => n + 1
  | none => 0

/-- There is a column unless the line begins behind the error. -/
theorem location?_eq (e : ParseError) (cs : List Char) : e.location? cs =
    if e.placeIn cs < e.lineStart cs then none
    else some ((e.searched cs).count '\n' + 1, e.placeIn cs + 1 - e.lineStart cs) := by
  rw [lineStart, searched, placeIn, location?]
  cases lastBreak? 0 ((upTo? cs (min e.offset (byteLength cs))).getD cs) with
  | none => rfl
  | some n =>
      dsimp only
      rw [Nat.add_sub_add_right]
      by_cases h : n < min e.offset (byteLength cs)
      · rw [if_pos h, if_neg (by omega)]
      · rw [if_neg h, if_pos (by omega)]

/-- At a boundary the lines before it are searched. -/
theorem searched_of_boundary (h : IsBoundary cs (e.placeIn cs)) :
    ∃ r, cs = e.searched cs ++ r ∧ byteLength (e.searched cs) = e.placeIn cs := by
  obtain ⟨w, r, hcs, hw⟩ := h
  have hsearched : e.searched cs = w := by
    rw [searched, ← hw]
    nth_rewrite 1 [hcs]
    rw [upTo?_byteLength, Option.getD_some]
  rw [hsearched]
  exact ⟨r, hcs, hw⟩

/-- Inside a character all lines of the text are searched. -/
theorem searched_of_inside (h : ¬ IsBoundary cs (e.placeIn cs)) : e.searched cs = cs := by
  rw [searched, upTo?_eq_none_iff.mpr h, Option.getD_none]

/-- The line from which the column is counted begins behind the other lines that are searched. -/
theorem exists_lines (e : ParseError) (cs : List Char) : ∃ lines line,
    e.searched cs = lines ++ line ∧ (lines = [] ∨ ∃ l, lines = l ++ ['\n']) ∧ '\n' ∉ line ∧
      e.lineStart cs = byteLength lines := by
  obtain ⟨lines, line, hsearched, hlines, hline⟩ := exists_lastLine (e.searched cs)
  refine ⟨lines, line, hsearched, hlines, hline, ?_⟩
  rw [lineStart, hsearched]
  rcases hlines with rfl | ⟨l, rfl⟩
  · rw [List.nil_append, lastBreak?_eq_none hline]
    rfl
  · rw [List.append_assoc, List.singleton_append, lastBreak?_append l hline,
      Text.byteLength_append, Nat.zero_add]
    rfl

/-- If the line begins behind the error, the error is inside a character, in front of the line break
that begins it. -/
theorem exists_break_of_lt (h : e.placeIn cs < e.lineStart cs) : ¬ IsBoundary cs (e.placeIn cs) ∧
    ∃ u r, cs = u ++ '\n' :: r ∧ e.placeIn cs < byteLength u := by
  obtain ⟨lines, line, hsearched, hlines, -, hstart⟩ := exists_lines e cs
  rw [hstart] at h
  have hinside : ¬ IsBoundary cs (e.placeIn cs) := by
    intro hboundary
    obtain ⟨r, -, hbytes⟩ := searched_of_boundary hboundary
    rw [hsearched, Text.byteLength_append] at hbytes
    omega
  rw [searched_of_inside hinside] at hsearched
  refine ⟨hinside, ?_⟩
  rcases hlines with rfl | ⟨l, rfl⟩
  · exact absurd h (Nat.not_lt_zero _)
  · have hbreak : byteLength (l ++ ['\n']) = byteLength l + 1 := Text.byteLength_append l ['\n']
    have hcs : cs = l ++ '\n' :: line := by rw [hsearched, List.append_assoc, List.singleton_append]
    -- The line break itself is at a boundary, so the error is not there.
    have hne : e.placeIn cs ≠ byteLength l := fun heq ↦ hinside ⟨l, _, hcs, heq.symm⟩
    rw [hbreak] at h
    exact ⟨l, line, hcs, by omega⟩

/-- An error inside a character has no location if a line break comes after it, and all others have
one. -/
theorem location?_eq_none_iff : e.location? cs = none ↔
    ¬ IsBoundary cs e.offset ∧ ∃ u r, cs = u ++ '\n' :: r ∧ e.offset < byteLength u := by
  rw [location?_eq]
  constructor
  · intro h
    have hlt : e.placeIn cs < e.lineStart cs := by
      by_contra hle
      rw [if_neg hle] at h
      cases h
    obtain ⟨hinside, u, r, hcs, hbefore⟩ := exists_break_of_lt hlt
    have hplace : e.placeIn cs = e.offset := by
      rcases Nat.le_total e.offset (byteLength cs) with hle | hle
      · exact Nat.min_eq_left hle
      · rw [placeIn, Nat.min_eq_right hle] at hinside
        exact absurd (isBoundary_byteLength cs) hinside
    rw [hplace] at hinside hbefore
    exact ⟨hinside, u, r, hcs, hbefore⟩
  · rintro ⟨hinside, u, r, hcs, hlt⟩
    have hle : e.offset ≤ byteLength cs := by
      rw [hcs, Text.byteLength_append]
      omega
    have hplace : e.placeIn cs = e.offset := Nat.min_eq_left hle
    obtain ⟨lines, line, hsearched, -, hline, hstart⟩ := exists_lines e cs
    rw [← hplace] at hinside
    rw [searched_of_inside hinside, hcs, List.append_eq_append_iff] at hsearched
    refine if_pos ?_
    rw [hplace, hstart]
    rcases hsearched with ⟨t, rfl, -⟩ | ⟨t, -, ht⟩
    · rw [Text.byteLength_append]
      omega
    · rw [ht] at hline
      exact absurd (List.mem_append_right t List.mem_cons_self) hline

/-- What is searched goes up to the place, or is the whole text for an offset inside a character. -/
theorem exists_searched (e : ParseError) (cs : List Char) : ∃ rest, cs = e.searched cs ++ rest ∧
    (byteLength (e.searched cs) = e.placeIn cs ∨ ¬ IsBoundary cs (e.placeIn cs) ∧ rest = []) := by
  by_cases hboundary : IsBoundary cs (e.placeIn cs)
  · obtain ⟨rest, hcs, hbytes⟩ := searched_of_boundary hboundary
    exact ⟨rest, hcs, .inl hbytes⟩
  · refine ⟨[], ?_, .inr ⟨hboundary, rfl⟩⟩
    rw [searched_of_inside hboundary, List.append_nil]

/-- Of any error in any text, the only ones without a location are those inside a character with a
line break behind it.  The line of all others is at most one more than there are line breaks, and
the column at least one: so many bytes behind the lines that come before it, where an offset inside
a character has all lines of the text before it. -/
theorem location_of_any_offset (e : ParseError) (cs : List Char) :
    (e.location? cs = none ↔
      ¬ IsBoundary cs e.offset ∧ ∃ u r, cs = u ++ '\n' :: r ∧ e.offset < byteLength u) ∧
    ∀ line column, e.location? cs = some (line, column) →
      line ≤ cs.count '\n' + 1 ∧ 1 ≤ column ∧
      ∃ lines last rest, cs = lines ++ last ++ rest ∧
        (byteLength (lines ++ last) = e.placeIn cs ∨
          ¬ IsBoundary cs (e.placeIn cs) ∧ rest = []) ∧
        (lines = [] ∨ ∃ l, lines = l ++ ['\n']) ∧ '\n' ∉ last ∧
        line = lines.count '\n' + 1 ∧ column + byteLength lines = e.placeIn cs + 1 := by
  refine ⟨location?_eq_none_iff, fun line column h ↦ ?_⟩
  rw [location?_eq] at h
  split at h
  · cases h
  · rename_i hle
    cases h
    obtain ⟨rest, hcs, hend⟩ := exists_searched e cs
    obtain ⟨lines, last, hsearched, hlines, hlast, hstart⟩ := exists_lines e cs
    have hprefix : e.searched cs <+: cs := ⟨rest, hcs.symm⟩
    have hcount := hprefix.sublist.count_le '\n'
    refine ⟨Nat.succ_le_succ hcount, by omega, lines, last, rest, ?_, ?_, hlines, hlast, ?_,
      by omega⟩
    · rwa [← hsearched]
    · rwa [← hsearched]
    · rw [hsearched, List.count_append, List.count_eq_zero.mpr hlast, Nat.add_zero]

/-- The second line is `é`.  Its first byte is in column one; an error at its second byte has no
column, since the last line break is behind it. -/
theorem location_of_any_offset_second_line :
    let cs := "a\né\nb".toList
    (⟨3, []⟩ : ParseError).location? cs = none ∧ ¬ IsBoundary cs 3 ∧
    (⟨2, []⟩ : ParseError).location? cs = some (2, 1) ∧
      ∃ lines last rest, cs = lines ++ last ++ rest ∧ '\n' ∉ last ∧
        2 = lines.count '\n' + 1 ∧ 1 + byteLength lines = 2 + 1 := by
  intro cs
  have hnone : (⟨3, []⟩ : ParseError).location? cs = none := by decide +kernel
  have hsome : (⟨2, []⟩ : ParseError).location? cs = some (2, 1) := by decide +kernel
  obtain ⟨hiff, -⟩ := location_of_any_offset ⟨3, []⟩ cs
  obtain ⟨-, hlocated⟩ := location_of_any_offset ⟨2, []⟩ cs
  obtain ⟨-, -, lines, last, rest, hcs, -, -, hlast, hline, hcolumn⟩ := hlocated 2 1 hsome
  exact ⟨hnone, (hiff.mp hnone).1, hsome, lines, last, rest, hcs, hlast, hline, hcolumn⟩

/-- Inside the only character of the first line there is no location. -/
theorem no_location_before_break :
    (⟨1, []⟩ : ParseError).location? ['é', '\n'] = none := by
  decide +kernel

end ParseError

end Parsing

end ZPlane
