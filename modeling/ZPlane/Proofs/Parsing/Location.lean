import Mathlib
import ZPlane.Proofs.Parsing.Placed
import ZPlane.Proofs.Parsing.Slice

/-!
# Offsets and lines of a text

A run that begins at a character boundary of a text stays at such boundaries: it ends at one, and
its hints stand at them (`Within`).  An error at a boundary is located by the line breaks before it
and the bytes of its own line (`Located`).
-/

namespace ZPlane

namespace Parsing

open Text (byteLength)

/-! ### Character boundaries -/

/-- The offset is a character boundary of the text. -/
def IsBoundary (cs : List Char) (n : Nat) : Prop := ∃ w r, cs = w ++ r ∧ byteLength w = n

/-- The offset is a character boundary of the text, and not before the first one. -/
structure BoundaryFrom (cs : List Char) (first n : Nat) : Prop where
  boundary : IsBoundary cs n
  first_le : first ≤ n
  le_length : n ≤ byteLength cs

section Boundaries

variable {cs : List Char} {o n : Nat} {d : Cursor}

/-- The beginning is a boundary of any text. -/
theorem boundaryFrom_zero (cs : List Char) : BoundaryFrom cs 0 0 :=
  ⟨⟨[], cs, rfl, rfl⟩, Nat.le_refl 0, Nat.zero_le _⟩

/-- What a boundary of a text reaches are places of the text. -/
theorem Cursor.Reaches.ofText (ho : IsBoundary cs o) (h : (Cursor.ofText cs o).Reaches d) :
    d = .ofText cs d.offset ∧ BoundaryFrom cs o d.offset := by
  obtain ⟨w, r, rfl, rfl⟩ := ho
  have hrest : (Cursor.ofText (w ++ r) (byteLength w)).rest = .chars r := after_byteLength w r
  obtain ⟨v, r, rfl, rfl⟩ := (Cursor.reaches_iff hrest).mp h
  simp only [Cursor.ofText, ← Text.byteLength_append, ← List.append_assoc]
  rw [after_byteLength]
  refine ⟨rfl, ⟨w ++ v, r, rfl, rfl⟩, ?_, ?_⟩
  · rw [Text.byteLength_append]
    exact Nat.le_add_right _ _
  · rw [Text.byteLength_append (w ++ v)]
    exact Nat.le_add_right _ _

/-- The offsets that are passed on the way from a boundary are boundaries. -/
theorem Cursor.Passes.boundaryFrom (ho : IsBoundary cs o) (h : (Cursor.ofText cs o).Passes n) :
    BoundaryFrom cs o n := by
  obtain ⟨d, hd, rfl⟩ := h
  exact (hd.ofText ho).2

end Boundaries

/-- The run ends at a boundary of the text, its hints stand at such, and a failure has a hint. -/
structure Outcome.Within {α : Type} (cs : List Char) (first : Nat) (o : Outcome α) : Prop where
  place : ∀ ⦃c a h⦄, o = .success c a h →
    c = .ofText cs c.offset ∧ BoundaryFrom cs first c.offset
  hints : ∀ n ∈ o.hints.offsets, BoundaryFrom cs first n
  failure : ∀ ⦃h⦄, o = .failure h → h.offsets ≠ []

/-- Runs from a boundary stay within the text, at any depth of calls. -/
theorem Grammar.within_runAt {ρ : Type} {V : ρ → Type} (g : Grammar V) (depth : Nat) {α : Type}
    (p : Parser V α) {cs : List Char} {o : Nat} (ho : IsBoundary cs o) :
    (g.runAt depth p (.ofText cs o)).Within cs o where
  place _ _ h hrun := by
    have hreads : p.Reads (g.call depth) _ _ _ := ⟨h, hrun⟩
    exact (hreads.reaches (g.forward_call depth)).ofText ho
  hints n hn := ((g.placed_runAt depth p _).hints.passes n hn).boundaryFrom ho
  failure _ hrun := (g.placed_runAt depth p _).ne_nil hrun

/-! ### Lines -/

namespace ParseError

variable {line : List Char}

/-- A text ends with a line, which may be empty, behind the lines before it. -/
theorem exists_lastLine (w : List Char) : ∃ lines line, w = lines ++ line ∧
    (lines = [] ∨ ∃ l, lines = l ++ ['\n']) ∧ '\n' ∉ line := by
  induction w using List.reverseRecOn with
  | nil => exact ⟨[], [], rfl, .inl rfl, List.not_mem_nil⟩
  | append_singleton w c ih =>
      by_cases hc : c = '\n'
      · exact ⟨w ++ [c], [], (List.append_nil _).symm, .inr ⟨w, by rw [hc]⟩, List.not_mem_nil⟩
      · obtain ⟨lines, line, rfl, hlines, hline⟩ := ih
        refine ⟨lines, line ++ [c], List.append_assoc _ _ _, hlines, ?_⟩
        simpa [hline] using Ne.symm hc

/-- In a line no break is found. -/
theorem lastBreak?_eq_none (h : '\n' ∉ line) (here : Nat) : lastBreak? here line = none := by
  induction line generalizing here with
  | nil => rfl
  | cons c line ih =>
      rw [List.mem_cons, not_or] at h
      rw [lastBreak?, ih h.2]
      exact if_neg (Ne.symm h.1)

/-- The break before the last line is found. -/
theorem lastBreak?_append (l : List Char) (h : '\n' ∉ line) (here : Nat) :
    lastBreak? here (l ++ '\n' :: line) = some (here + byteLength l) := by
  induction l generalizing here with
  | nil =>
      rw [List.nil_append, lastBreak?, lastBreak?_eq_none h]
      rfl
  | cons c l ih =>
      rw [List.cons_append, lastBreak?, ih, Text.byteLength_cons, Nat.add_assoc]

/-- The offset of the error is a boundary of the text, and its line and column say which one: so
many line breaks come before it, and so many bytes of its own line. -/
def Located (e : ParseError) (cs : List Char) : Prop :=
  ∃ lines line rest, cs = lines ++ line ++ rest ∧ e.offset = byteLength lines + byteLength line ∧
    (lines = [] ∨ ∃ l, lines = l ++ ['\n']) ∧ '\n' ∉ line ∧
    e.location? cs = some ((lines ++ line).count '\n' + 1, byteLength line + 1)

/-- The line break that the column is counted from is before the boundary, so there is a column. -/
theorem located_of_boundary {e : ParseError} {cs : List Char} (h : IsBoundary cs e.offset) :
    e.Located cs := by
  obtain ⟨w, rest, rfl, hw⟩ := h
  obtain ⟨lines, line, rfl, hlines, hline⟩ := exists_lastLine w
  rw [Text.byteLength_append] at hw
  refine ⟨lines, line, rest, rfl, hw.symm, hlines, hline, ?_⟩
  have hbefore : upTo? (lines ++ line ++ rest) e.offset = some (lines ++ line) := by
    rw [← hw, ← Text.byteLength_append]
    exact upTo?_byteLength _ rest
  have hoffset : min e.offset (byteLength (lines ++ line ++ rest)) = e.offset := by
    rw [Text.byteLength_append, Text.byteLength_append, hw]
    exact Nat.min_eq_left (Nat.le_add_right _ _)
  simp only [location?, hoffset, hbefore, Option.getD_some]
  rcases hlines with rfl | ⟨l, rfl⟩
  · rw [List.nil_append, lastBreak?_eq_none hline]
    rw [Text.byteLength_nil, Nat.zero_add] at hw
    rw [hw]
  · have hbreak : e.offset = 0 + byteLength l + (byteLength line + 1) := by
      rw [← hw, Text.byteLength_append]
      have hsize : byteLength ['\n'] = 1 := rfl
      omega
    rw [List.append_assoc, List.singleton_append, lastBreak?_append l hline]
    dsimp only
    rw [if_pos (by omega), hbreak, Nat.add_sub_cancel_left]

end ParseError

end Parsing

end ZPlane
