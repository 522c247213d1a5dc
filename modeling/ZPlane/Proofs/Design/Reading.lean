import Mathlib
import ZPlane.Design.Listing
import ZPlane.Proofs.Calculator.Extension
import ZPlane.Proofs.Calculator.Completeness
import ZPlane.Proofs.Parsing.Slice

/-!
# Reading a list of slots

The parts of a listing are read from text that is known: the small tokens between the slots, a slot
with the text behind it, and items with separators between them.  A list goes from one item to the
next by what is left of its text (`exists_reads_sepBy`), for slots as for entries.
-/

namespace ZPlane

namespace Text

/-- Blanks at either end are trimmed. -/
theorem trim_skip_append {bs : List Char} (hbs : ∀ c ∈ bs, isBlank c = true) (v : List Char) :
    trim (skip v ++ bs) = trim v := by
  have hbs' : ∀ c ∈ bs.reverse, isBlank c = true := fun c hc ↦ hbs c (List.mem_reverse.mp hc)
  have hskip : skip (skip v ++ bs) = [] ∧ skip v = [] ∨ skip (skip v ++ bs) = skip v ++ bs := by
    cases hv : skip v with
    | nil => exact .inl ⟨List.dropWhile_eq_nil_iff.mpr hbs, rfl⟩
    | cons c w => exact .inr (skip_cons_of_not_isBlank (isBlank_of_skip hv) _)
  unfold skip at hskip
  unfold trim skip
  rcases hskip with ⟨h, hv⟩ | h
  · rw [h, hv]
  · rw [h, List.reverse_append, List.dropWhile_append_of_pos hbs']

end Text

namespace Parsing

namespace Parser

/-! ### Lists with separators -/

section Lists

variable {ρ : Type} {V : ρ → Type} {call : (r : ρ) → Cursor → Outcome (V r)}
variable {α β γ ι : Type} {p item : Parser V α} {separator : Parser V β} {f : α → γ} {g : ι → γ}
variable {left : List ι → Cursor → Prop} {front : ι → List ι → Cursor → Prop} {c : Cursor}

/-- A repetition goes on for as long as something is left. -/
theorem exists_repeats
    (hstep : ∀ {i is c}, left (i :: is) c →
      ∃ m a, Reads call p c m a ∧ c.offset < m.offset ∧ left is m ∧ f a = g i)
    (hstop : ∀ {c}, left [] c → Rejects call p c) (is : List ι) (h : left is c) :
    ∃ m as, Repeats call p c m as ∧ left [] m ∧ as.map f = is.map g := by
  induction is generalizing c with
  | nil => exact ⟨c, [], .stop (hstop h), h, rfl⟩
  | cons i is ih =>
      obtain ⟨m, a, hread, hlt, hm, ha⟩ := hstep h
      obtain ⟨m', as, hrep, hm', has⟩ := ih hm
      exact ⟨m', a :: as, .more hread hlt hrep, hm', by rw [List.map_cons, List.map_cons, ha, has]⟩

/-- Items are read one after another if each is read where the last separator led to. -/
theorem exists_reads_sepBy (hcall : Forward call) {i : ι} {is : List ι} (h : front i is c)
    (hitem : ∀ {i is c}, front i is c → ∃ m a, Reads call item c m a ∧ left is m ∧ f a = g i)
    (hseparator : ∀ {i is c}, left (i :: is) c →
      ∃ m b, Reads call separator c m b ∧ c.offset < m.offset ∧ front i is m)
    (hstop : ∀ {c}, left [] c → Rejects call separator c) :
    ∃ m as, Reads call (item.sepBy separator) c m as ∧ left [] m ∧ as.map f = (i :: is).map g := by
  obtain ⟨m₁, a, ha, hleft, hfa⟩ := hitem h
  have hstep {i : ι} {is : List ι} {c : Cursor} (h : left (i :: is) c) : ∃ m a,
      Reads call (separator.second item) c m a ∧ c.offset < m.offset ∧ left is m ∧ f a = g i := by
    obtain ⟨m, b, hb, hlt, hfront⟩ := hseparator h
    obtain ⟨m', a, ha, hleft, hfa⟩ := hitem hfront
    have hle := (ha.reaches hcall).offset_le
    exact ⟨m', a, reads_second.mpr ⟨m, b, hb, ha⟩, by omega, hleft, hfa⟩
  obtain ⟨m, as, hrep, hnil, has⟩ :=
    exists_repeats hstep (fun h ↦ rejects_second_of_left (hstop h)) is hleft
  refine ⟨m, a :: as, ?_, hnil, by rw [List.map_cons, List.map_cons, hfa, has]⟩
  exact reads_map.mpr ⟨(a, as), reads_both.mpr ⟨m₁, ha, (reads_many hcall).mpr hrep⟩, rfl⟩

end Lists

end Parser

end Parsing

open Parsing Parsing.Parser Calculator
open Text (skip)

variable {cs r s : List Char} {c m : Cursor} {depth : Nat}

/-! ### Places of a text -/

/-- The place is one of the text `cs`, and `r` comes after it. -/
structure Stands (cs : List Char) (c : Cursor) (r : List Char) : Prop where
  reaches : (Cursor.ofText cs 0).Reaches c
  rest : c.rest = .chars r

namespace Stands

theorem start (cs : List Char) : Stands cs (.ofText cs 0) cs :=
  ⟨.refl _, Cursor.rest_ofText_zero cs⟩

/-- A place of a text has the bytes before it for its offset. -/
theorem exists_append (h : Stands cs c r) :
    ∃ u, cs = u ++ r ∧ c = ⟨Text.byteLength u, .chars r⟩ := by
  obtain ⟨u, r', rfl, hc⟩ := (Cursor.reaches_iff (Cursor.rest_ofText_zero cs)).mp h.reaches
  obtain rfl : r' = r := by
    have hrest := h.rest
    rw [hc] at hrest
    exact Remainder.chars.inj hrest
  exact ⟨u, rfl, by rw [hc, Cursor.ofText, Nat.zero_add]⟩

/-- No more is left at a place than the text has. -/
theorem length_le (h : Stands cs c r) : r.length ≤ cs.length := by
  obtain ⟨u, rfl, -⟩ := h.exists_append
  exact (List.suffix_append u r).length_le

/-- A place that is read on to from one of the text is one of the text. -/
theorem of_reads {α : Type} {p : Parser (fun _ : Rule ↦ Expr) α} {a : α} (h : Stands cs c r)
    (hread : Reads (grammar.call depth) p c m a) (hm : m.rest = .chars s) : Stands cs m s :=
  ⟨h.reaches.trans (hread.reaches (grammar.forward_call depth)), hm⟩

/-- What is between two places of a text. -/
theorem slice {w : List Char} (h : Stands cs c (w ++ r)) (hm : Stands cs m r) :
    Span.slice ⟨c.offset, m.offset⟩ cs = Text.trim w := by
  obtain ⟨u, rfl, rfl⟩ := h.exists_append
  obtain ⟨v, hv, rfl⟩ := hm.exists_append
  rw [← List.append_assoc] at hv
  obtain rfl := List.append_cancel_right hv
  rw [Text.byteLength_append]
  exact slice_eq_trim u w r

end Stands

/-! ### The tokens of a listing -/

/-- The blanks within a line. -/
def Listing.isGap (c : Char) : Bool := c = ' ' || c = '\t' || c = '\r'

def Listing.IsSeparator (c : Char) : Prop := c = ';' ∨ c = '\n'

namespace Stands

variable {t : String}

/-- A place with less behind it lies further on. -/
theorem offset_lt {α : Type} {p : Parser (fun _ : Rule ↦ Expr) α} {a : α} (h : Stands cs c r)
    (hread : Reads (grammar.call depth) p c m a) (hm : Stands cs m s)
    (hlt : s.length < r.length) : c.offset < m.offset :=
  (hread.reaches (grammar.forward_call depth)).offset_lt h.rest hm.rest hlt

variable (depth)

theorem exists_reads_literal (h : Stands cs c (t.toList ++ r)) :
    ∃ m v, Reads (grammar.call depth) (literal t) c m v ∧ Stands cs m r := by
  have ht : Longest (· = t.toList) (t.toList ++ r) t.toList r := ⟨rfl, rfl, fun _ h _ ↦ h ▸ le_rfl⟩
  obtain ⟨m, hread, hm⟩ : ∃ m, Reads (grammar.call depth) (literal t) c m (.ofList t.toList) ∧
      m.rest = .chars r := (takes_token (measures_literal t.toList)).reads h.rest ht
  exact ⟨m, _, hread, h.of_reads hread hm⟩

/-- A symbol is read where the text has it, with the blanks behind it. -/
theorem exists_reads_symbol (h : Stands cs c (t.toList ++ r)) :
    ∃ m v, Reads (grammar.call depth) (symbol t) c m v ∧ Stands cs m (skip r) := by
  obtain ⟨m, v, hread, hm⟩ : ∃ m v, Reads (grammar.call depth) (symbol t) c m v ∧
      m.rest = .chars (skip r) := reads_symbol h.rest
  exact ⟨m, v, hread, h.of_reads hread hm⟩

/-- The longest name is read. -/
theorem exists_reads_identifier {w : List Char} (h : Stands cs c r) (hw : Longest IsName r w s) :
    ∃ m, Reads (grammar.call depth) identifier c m (String.ofList w) ∧ Stands cs m s := by
  obtain ⟨m, hread, hm⟩ : ∃ m, Reads (grammar.call depth) identifier c m (String.ofList w) ∧
      m.rest = .chars s := takes_identifier.reads h.rest hw
  exact ⟨m, hread, h.of_reads hread hm⟩

/-- The blanks of the line are read, if any. -/
theorem exists_reads_gap (h : Stands cs c r) :
    ∃ m v, Reads (grammar.call depth) Listing.gap c m v ∧
      Stands cs m (r.dropWhile Listing.isGap) := by
  obtain ⟨m, v, hread, hm⟩ : ∃ m v, Reads (grammar.call depth) Listing.gap c m v ∧
      m.rest = .chars (r.dropWhile Listing.isGap) :=
    ⟨_, _, reads_token.mpr ⟨r, _, h.rest, rfl, rfl, rfl⟩, congrArg Remainder.chars drop_runLength⟩
  exact ⟨m, v, hread, h.of_reads hread hm⟩

/-- A separator is read with the blanks behind it. -/
theorem exists_reads_separator {d : Char} (hd : Listing.IsSeparator d) (h : Stands cs c (d :: r)) :
    ∃ m v, Reads (grammar.call depth) Listing.separator c m v ∧ c.offset < m.offset ∧
      Stands cs m (skip r) := by
  have hsize : Listing.separatorLength? (d :: r) = some (1 + runLength Text.isBlank r) := by
    rcases hd with rfl | rfl
    · rfl
    · rfl
  have hdrop : (d :: r).drop (1 + runLength Text.isBlank r) = skip r := by
    rw [Nat.add_comm, List.drop_succ_cons]
    exact drop_runLength
  obtain ⟨m, v, hread, hm⟩ : ∃ m v, Reads (grammar.call depth) Listing.separator c m v ∧
      m.rest = .chars (skip r) :=
    ⟨_, _, reads_label.mpr (reads_token.mpr ⟨_, _, h.rest, hsize, rfl, rfl⟩),
      congrArg Remainder.chars hdrop⟩
  have hstands := h.of_reads hread hm
  have hlt := h.offset_lt hread hstands (Nat.lt_succ_of_le (Text.length_skip_le r))
  exact ⟨m, v, hread, hlt, hstands⟩

/-- Other characters are rejected for a separator. -/
theorem rejects_separator (h : Stands cs c r) (hr : ∀ d ∈ r.head?, ¬ Listing.IsSeparator d) :
    Rejects (grammar.call depth) Listing.separator c := by
  refine rejects_label.mpr ((rejects_token h.rest).mpr ?_)
  unfold Listing.separatorLength?
  split
  · exact absurd (.inl rfl) (hr _ rfl)
  · exact absurd (.inr rfl) (hr _ rfl)
  · rfl

end Stands

/-- No expression is read where nothing goes on with one. -/
theorem Calculator.rejects_expression (hc : c.rest = .chars r) (h : Stops .sum r) :
    Rejects (grammar.call (depth + 1)) (rule .expression) c := by
  have hterm : Rejects (grammar.call depth) terms c :=
    rejects_terms hc h.tighter.tighter.tighter.tighter
  have hsign : Rejects (grammar.call depth) signs c := by
    refine rejects_sign hc fun d hd hmem ↦ ?_
    have hcontinues := h d hd
    obtain rfl | rfl : d = '+' ∨ d = '-' := by simpa using hmem
    · cases hcontinues
    · cases hcontinues
  have hsigned : Rejects (grammar.call depth) signeds c := by
    refine rejects_map.mpr (rejects_both.mpr (.inr ⟨c, [], ?_, ?_⟩))
    · exact (reads_many (grammar.forward_call depth)).mpr (.stop hsign)
    · exact rejects_map.mpr (rejects_both_of_left hterm)
  have hpower : Rejects (grammar.call depth) powers c :=
    rejects_map.mpr (rejects_both_of_left hsigned)
  have hproduct : Rejects (grammar.call depth) products c :=
    rejects_map.mpr (rejects_both_of_left hpower)
  have hsum : Rejects (grammar.call depth) (phrase .sum) c :=
    rejects_map.mpr (rejects_both_of_left hproduct)
  exact hsum

end ZPlane
