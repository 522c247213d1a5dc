import Mathlib
import ZPlane.Design.Listing
import ZPlane.Proofs.Calculator.Termination
import ZPlane.Proofs.Parsing.Location

/-!
# Where errors are located

The runs of any parser from a character boundary of a text stay at its boundaries.  The errors of
the calculator and of listings come out of such runs, so each is at a boundary of its text, and its
line and column say which one.
-/

namespace ZPlane

open Parsing Calculator
open Text (byteLength)

section Errors

variable {α β : Type} {p : Parser (fun _ : Rule ↦ Expr) α} {f : α → β} {cs : List Char}
  {e : ParseError}

/-- The error of an entry point lies at the beginning of a character or at the end. -/
theorem Calculator.boundaryFrom_of_parseWith (h : (parseWith p cs).map f = .error e) :
    BoundaryFrom cs 0 e.offset := by
  have hzero := boundaryFrom_zero cs
  obtain ⟨hints, -, hfurthest, hplaced, -⟩ := Grammar.exists_hints_of_parse (parse_eq_error h)
  have hmem := hplaced.exact.mem_offsets hfurthest
  exact (hplaced.passes _ hmem).boundaryFrom hzero.boundary

end Errors

/-- Runs stay at the boundaries of their text, and errors are located at one of them. -/
theorem runs_within_and_errors_located :
    (∀ {ρ : Type} {V : ρ → Type} (g : Grammar V) (depth : Nat) {α : Type} (p : Parser V α)
      (cs : List Char) (o : Nat), IsBoundary cs o → (g.runAt depth p (.ofText cs o)).Within cs o) ∧
    ∀ (text : String) (e : ParseError),
      calculate text = .error e ∨ Listing.parse text = .error e →
        BoundaryFrom text.toList 0 e.offset ∧ e.Located text.toList := by
  constructor
  · intro ρ V g depth α p cs o ho
    exact g.within_runAt depth p ho
  · intro text e he
    have hboundary : BoundaryFrom text.toList 0 e.offset := by
      rcases he with he | he
      · exact boundaryFrom_of_parseWith he
      · exact boundaryFrom_of_parseWith he
    exact ⟨hboundary, ParseError.located_of_boundary hboundary.boundary⟩

/-- The second line of the listing begins with a blank of two bytes, and its slot with an accent. -/
def accentedSlot : String := "a = []\n\u00a0b = [é]"

def accentedSlotError : ParseError :=
  ⟨14, ["sign", "number", "constant", "function", "\"(\"", "\"]\""]⟩

/-- The accent is rejected in the second line, in its eighth byte. -/
theorem runs_within_and_errors_located_accented :
    IsBoundary accentedSlot.toList 9 ∧
    (grammar.runAt 1 calculation (.ofText accentedSlot.toList 9)).Within accentedSlot.toList 9 ∧
    Listing.parse accentedSlot = .error accentedSlotError ∧
    BoundaryFrom accentedSlot.toList 0 14 ∧ accentedSlotError.Located accentedSlot.toList ∧
    accentedSlotError.location? accentedSlot.toList = some (2, 8) := by
  have hstart : IsBoundary accentedSlot.toList 9 :=
    ⟨"a = []\n\u00a0".toList, "b = [é]".toList, by decide +kernel, by decide +kernel⟩
  have herror : Listing.parse accentedSlot = .error accentedSlotError := by decide +kernel
  obtain ⟨hruns, herrors⟩ := runs_within_and_errors_located
  obtain ⟨hboundary, hlocated⟩ := herrors accentedSlot accentedSlotError (.inr herror)
  have hlocation : accentedSlotError.location? accentedSlot.toList = some (2, 8) := by
    decide +kernel
  exact ⟨hstart, hruns grammar 1 calculation _ 9 hstart, herror, hboundary, hlocated, hlocation⟩

end ZPlane
