import Mathlib
import ZPlane.Design.Listing
import ZPlane.Proofs.Calculator.Completeness
import ZPlane.Proofs.Parsing.Slice
import ZPlane.Proofs.Parsing.Values

/-!
# Slots of a listing

A slot is parsed in place, and its root keeps the bytes between its two places without the blanks
around them.  These are the phrase that was read there: it does not depend on what comes before it
or after it (`Derives.exists_cut`), so the text of the root alone says the same expression.
-/

namespace ZPlane

open Parsing Parsing.Parser Calculator

namespace Listing

variable {cs : List Char} {depth : Nat}

/-- The slice of the slot is trimmed, and says what was read in the slot. -/
def Agrees (cs : List Char) (slot : Expr × Span) : Prop :=
  Text.trim (slot.2.slice cs) = slot.2.slice cs ∧ Denotes (slot.2.slice cs) slot.1

/-- What is left of a phrase and the blanks behind it says the same, trimmed. -/
theorem denotes_trim {w r : List Char} {e : Expr} (h : Derives .sum (w ++ Text.skip r) r e) :
    Text.trim (Text.trim w) = Text.trim w ∧ Denotes (Text.trim w) e := by
  obtain ⟨v, hv, he⟩ := Derives.exists_cut (r := []) h
  have hw : w = v ++ r.takeWhile Text.isBlank := by
    refine List.append_cancel_right (hv.trans ?_)
    rw [List.append_assoc, Text.skip, List.takeWhile_append_dropWhile]
  have hblank : ∀ c ∈ r.takeWhile Text.isBlank, Text.isBlank c = true :=
    fun _ hc ↦ List.mem_takeWhile_imp hc
  have htrim : Text.trim v = v := by
    have hnil : ∀ c ∈ ([] : List Char), Text.isBlank c = true := by simp
    have := Text.trim_append he.skip_eq he.leaves hnil
    rwa [List.append_nil] at this
  rw [hw, Text.trim_append he.skip_eq he.leaves hblank, htrim]
  exact ⟨rfl, [], he.skip_eq.symm ▸ he, rfl⟩

/-- A slot is read with the span of what it says. -/
theorem yields_slot : Yields (grammar.call depth) (.ofText cs 0)
    (spanned (rule .expression) : Parser (fun _ ↦ Expr) (Expr × Span)) (Agrees cs) := by
  rintro c c' ⟨e, span⟩ hc h
  obtain ⟨hread, rfl⟩ := reads_spanned.mp h
  obtain ⟨u, rest, rfl, rfl⟩ := (Cursor.reaches_iff (Cursor.rest_ofText_zero cs)).mp hc
  obtain ⟨w, rest', rfl, rfl⟩ :=
    (Cursor.reaches_iff rfl).mp (hread.reaches (grammar.forward_call depth))
  obtain ⟨r, hr, he⟩ := sound_expression depth rfl hread
  obtain rfl := Remainder.chars.inj hr
  have hslice := slice_eq_trim u w (Text.skip r)
  rw [Agrees]
  simp only [Cursor.ofText, Nat.zero_add]
  rw [hslice]
  exact denotes_trim he

/-- The slots of an entry are read with the spans of what they say. -/
theorem yields_entry : Yields (grammar.call depth) (.ofText cs 0)
    (entry (rule .expression) : Parser (fun _ ↦ Expr) _) fun e ↦ ∀ s ∈ e.2, Agrees cs s := by
  have hforward := grammar.forward_call depth
  have hslots : Yields (grammar.call depth) (.ofText cs 0)
      (slots (rule .expression) : Parser (fun _ ↦ Expr) _) fun ss ↦ ∀ s ∈ ss, Agrees cs s := by
    refine (yields_slot.sepBy hforward).optional.map ?_
    rintro (_ | ss) hss
    · exact fun s hs ↦ absurd hs List.not_mem_nil
    · exact hss ss rfl
  have hlabel {p : Parser (fun _ : Rule ↦ Expr) String} :
      Yields (grammar.call depth) (.ofText cs 0) p fun _ ↦ True := fun _ _ _ _ _ ↦ trivial
  exact fun c c' e hc h ↦ (((hlabel.both hforward hslots).first).first hc h).2

/-- The slots of a listing are read with the spans of what they say. -/
theorem yields_listing : Yields (grammar.call depth) (.ofText cs 0) listing
    fun es ↦ ∀ e ∈ es, ∀ s ∈ e.2, Agrees cs s := by
  have hforward := grammar.forward_call depth
  refine ((yields_entry.sepBy hforward).optional.second hforward).first.map ?_
  rintro (_ | es) hes
  · exact fun e he ↦ absurd he List.not_mem_nil
  · exact hes es rfl

/-- A slot's root is what its text alone is parsed to. -/
theorem root_eq_parse_text {text : String} {entries : List (Entry Binary64)}
    (h : Listing.parse text = .ok entries) : ∀ e ∈ entries, ∀ r ∈ e.roots,
      r = Root.parse r.text ∧ Text.trim r.text.toList = r.text.toList ∧
        calculate r.text = .ok r.value ∧ r.error = none := by
  rw [Listing.parse] at h
  cases hparse : parseWith listing text.toList with
  | error _ =>
      rw [hparse] at h
      cases h
  | ok es =>
      rw [hparse] at h
      cases h
      obtain ⟨c', hread, -⟩ := parseWith_eq_ok.mp hparse
      have hagrees := yields_listing (.refl _) hread
      intro e he r hr
      obtain ⟨⟨label, ss⟩, hmem, rfl⟩ := List.mem_map.mp he
      obtain ⟨⟨a, span⟩, hslot, rfl⟩ := List.mem_map.mp hr
      obtain ⟨htrim, hdenotes⟩ := hagrees _ hmem _ hslot
      have hvalue : calculate (String.ofList (span.slice text.toList)) = .ok a.value :=
        calculate_of_denotes (by rwa [String.toList_ofList])
      refine ⟨?_, ?_, hvalue, rfl⟩
      · rw [Root.parse, hvalue]
      · rw [String.toList_ofList]
        exact htrim

/-- The entry of `z = [ 1 , -2 i ]`. -/
def twoSlots : Entry Binary64 where
  label := "z"
  roots := [⟨"1", (Expr.number (Decimal.toBinary64 ⟨false, 1, 0⟩)).value, none⟩,
    ⟨"-2 i", (Expr.signed .negate (.juxtaposed (.number (Decimal.toBinary64 ⟨false, 2, 0⟩))
      (.constant .i))).value, none⟩]

/-- The roots of an entry with blanks around its slots, one of them a product. -/
theorem root_eq_parse_text_two_slots : Listing.parse "z = [ 1 , -2 i ]" = .ok [twoSlots] ∧
    ∀ r ∈ twoSlots.roots, r = Root.parse r.text ∧ Text.trim r.text.toList = r.text.toList ∧
      calculate r.text = .ok r.value ∧ r.error = none := by
  have h : Listing.parse "z = [ 1 , -2 i ]" = .ok [twoSlots] := by decide +kernel
  exact ⟨h, root_eq_parse_text h twoSlots List.mem_cons_self⟩

end Listing

end ZPlane
