import Mathlib
import ZPlane.Design.Listing
import ZPlane.Proofs.Calculator.Termination
import ZPlane.Proofs.Parsing.Labels

/-!
# What the grammars expect

Each token of the calculator and of listings is a literal, is looked for under a label, or matches
everywhere in a text.  So what the grammars expect is among a few labels, whatever the text and
wherever in it they are run, and a text is rejected for one of these at least, or for its end.
-/

namespace ZPlane

open Parsing Parsing.Parser

/-- The names that blanks are looked for under. -/
def blankNames : List String := ["/\\s*/", "/[ \\t\\r]*/"]

/-! ### Expressions -/

namespace Calculator

/-- What the calculator expects in a text. -/
def expectations : List String :=
  ["sign", "number", "constant", "function", "operator", Text.quoted "(", Text.quoted ")",
    Text.quoted ","]

section Levels

variable {ρ : Type} {V : ρ → Type} {call : (r : ρ) → Cursor → Outcome (V r)} {α : Type}
  {inner : Parser V Expr}

theorem labels_number : Labels call expectations (number : Parser V Binary64) :=
  .label ((silent_token _ _).filterMap _) (by decide)

variable (hcall : Forward call)
include hcall

/-- A name is expected under what it is a name of. -/
theorem labels_named {what : String} {ofName? : String → Option α} (hwhat : what ∈ expectations) :
    Labels call expectations (named what ofName? : Parser V α) := by
  have hname : Silent call (identifier : Parser V String) := Silent.label (silent_token _ _) _
  exact (Labels.label (hname.filterMap ofName?) hwhat).lexeme hcall

/-- A sign is expected under what it is a sign for. -/
theorem labels_sign {what chars text : String} {ofName? : String → Option α}
    (hwhat : what ∈ expectations) :
    Labels call expectations (sign what chars text ofName? : Parser V α) :=
  (Labels.label ((silent_token _ _).filterMap ofName?) hwhat).lexeme hcall

/-- A name with a bracket is expected under what it is a name of, and the bracket as quoted. -/
theorem labels_opened {what : String} {ofName? : String → Option α} (hwhat : what ∈ expectations)
    (hinner : Labels call expectations inner) :
    Labels call expectations (opened what ofName? inner) :=
  ((labels_named hcall hwhat).first hcall (.symbol hcall (by decide))).both hcall hinner

/-- The labels of a term are expectations of the calculator. -/
theorem labels_term (hinner : Labels call expectations inner) :
    Labels call expectations (term inner) := by
  have hclosing : Labels call expectations (symbol ")" : Parser V String) :=
    .symbol hcall (by decide)
  have hfunction : "function" ∈ expectations := by decide
  simp only [term, choice, List.foldl_cons, List.foldl_nil]
  refine .either (.either (.either (.either ?number ?constant) ?call) ?call₂) ?parenthesised
  case number => exact (labels_number.lexeme hcall).map
  case constant => exact (labels_named hcall (by decide)).map
  case call => exact ((labels_opened hcall hfunction hinner).first hcall hclosing).map
  case call₂ =>
    have hcomma : Labels call expectations (symbol "," : Parser V String) :=
      .symbol hcall (by decide)
    have hopened : Labels call expectations (opened "function" BinaryFn.ofName? inner) :=
      labels_opened hcall hfunction hinner
    exact (((hopened.first hcall hcomma).both hcall hinner).first hcall hclosing).map
  case parenthesised =>
    have hopening : Labels call expectations (symbol "(" : Parser V String) :=
      .symbol hcall (by decide)
    exact (hopening.second hcall hinner).first hcall hclosing

theorem labels_levels (hinner : Labels call expectations inner) :
    Labels call expectations (levels inner) := by
  have hterm := labels_term hcall hinner
  have hoperator : "operator" ∈ expectations := by decide
  simp only [levels, operator]
  refine .chainLeft hcall ?product (labels_sign hcall hoperator)
  refine .chainLeft hcall ?power (labels_sign hcall hoperator)
  refine .chainLeft hcall ?signed (labels_sign hcall hoperator)
  refine .prefixed hcall ?juxtaposed (labels_sign hcall (by decide))
  exact hterm.postfixed hcall hterm

end Levels

/-- The labels of an expression are expectations of the calculator at every depth. -/
theorem labels_expression (depth : ℕ) :
    Labels (grammar.call depth) expectations (rule .expression) := by
  induction depth with
  | zero => exact fun _ _ _ ↦ .empty
  | succ depth ih => exact labels_levels (grammar.forward_call depth) ih

/-- The labels of a calculation are expectations of the calculator. -/
theorem labels_calculation (depth : ℕ) :
    Labels (grammar.call depth) expectations calculation :=
  Labels.blanks.second (grammar.forward_call depth) (labels_expression depth)

end Calculator

/-! ### Listings -/

namespace Listing

open Calculator

/-- What a listing expects in a text. -/
def expectations : List String :=
  Calculator.expectations ++
    ["identifier", Text.quoted "=", Text.quoted "[", Text.quoted "]", "separator"]

section Parts

variable {ρ : Type} {V : ρ → Type} {call : (r : ρ) → Cursor → Outcome (V r)}
  {inner : Parser V Expr}

theorem labels_gap : Labels call expectations (gap : Parser V String) :=
  .token_of_total _ fun _ ↦ Option.some_ne_none _

theorem labels_separator : Labels call expectations (separator : Parser V String) :=
  .label (silent_token _ _) (by decide)

variable (hcall : Forward call) (hinner : Labels call expectations inner)
include hcall hinner

theorem labels_slots : Labels call expectations (slots inner) :=
  (hinner.spanned.sepBy hcall (.symbol hcall (by decide))).optional.map

theorem labels_entry : Labels call expectations (entry inner) := by
  have hlabel : Labels call expectations (identifier : Parser V String) :=
    .label (silent_token _ _) (by decide)
  have hequals : Labels call expectations (literal "=" : Parser V String) :=
    .token _ (by decide)
  have hclosing : Labels call expectations (literal "]" : Parser V String) :=
    .token _ (by decide)
  have hnamed := ((hlabel.first hcall labels_gap).first hcall hequals).first hcall labels_gap
  have hopened := hnamed.first hcall (.symbol hcall (by decide : Text.quoted "[" ∈ expectations))
  exact ((hopened.both hcall (labels_slots hcall hinner)).first hcall hclosing).first hcall
    labels_gap

theorem labels_entries : Labels call expectations (entries inner) := by
  have hlist := ((labels_entry hcall hinner).sepBy hcall labels_separator).optional
  exact ((Labels.blanks.second hcall hlist).first hcall (labels_separator.many hcall)).map

end Parts

/-- The labels of a listing are expectations of a listing. -/
theorem labels_listing (depth : ℕ) : Labels (grammar.call depth) expectations listing := by
  apply labels_entries (grammar.forward_call depth)
  exact (labels_expression depth).mono (List.subset_append_left _ _)

end Listing

/-! ### Rejected texts -/

namespace Calculator

variable {α β : Type} {p : Parser (fun _ : Rule ↦ Expr) α} {f : α → β} {cs : List Char}
  {e : ParseError}

/-- The error of an entry point names what the run has recorded at its offset. -/
theorem names_of_parseWith {labels : List String}
    (hp : Labels (grammar.call (depthFor cs)) labels p) (h : (parseWith p cs).map f = .error e) :
    e.Names (grammar.runAt (depthFor cs) p (.ofText cs 0)).reported :=
  Grammar.names_of_parse (parse_eq_error h) (hp (Cursor.rest_ofText_zero cs))

end Calculator

open Calculator (calculate calculation grammar depthFor)

/-- A text that the calculator or a listing rejects is rejected for labels that were recorded where
its error stands, each once and one at least.  Wherever in a text the grammars are run, every hint
has a label, and the blanks are none of them. -/
theorem errors_name_expectations (text : String) :
    (∀ e, calculate text = .error e →
      e.Names (grammar.runAt (depthFor text.toList) calculation (.ofText text.toList 0)).reported) ∧
    (∀ e, Listing.parse text = .error e → e.Names
      (grammar.runAt (depthFor text.toList) Listing.listing (.ofText text.toList 0)).reported) ∧
    (∀ depth o cs, (Cursor.ofText text.toList o).rest = .chars cs →
      (grammar.runAt depth calculation (.ofText text.toList o)).reported.LabelledBy
        (endOfInput :: Calculator.expectations) ∧
      (grammar.runAt depth Listing.listing (.ofText text.toList o)).reported.LabelledBy
        (endOfInput :: Listing.expectations)) ∧
    ∀ label ∈ endOfInput :: Listing.expectations, label ∉ blankNames := by
  refine ⟨?_, ?_, ?_, ?_⟩
  · intro e he
    exact Calculator.names_of_parseWith (Calculator.labels_calculation _) he
  · intro e he
    exact Calculator.names_of_parseWith (Listing.labels_listing _) he
  · intro depth o cs hcs
    constructor
    · exact Outcome.labelledBy_reported (Calculator.labels_calculation depth hcs)
    · exact Outcome.labelledBy_reported (Listing.labels_listing depth hcs)
  · decide

/-- The list is not closed; for the calculator the text is wrong from its first character on. -/
def openList : String := "z = [ 2 3"

/-- There may be one more term, an operator, another slot or the end of the list. -/
def openListError : ParseError :=
  ⟨9, ["number", "constant", "function", "\"(\"", "operator", "\",\"", "\"]\""]⟩

/-- The open list as a listing, as a calculation, and as one from within the brackets. -/
theorem errors_name_expectations_open_list :
    Listing.parse openList = .error openListError ∧
    openListError.Names (grammar.runAt (depthFor openList.toList) Listing.listing
      (.ofText openList.toList 0)).reported ∧
    (∃ e, calculate openList = .error e ∧ e.Names
      (grammar.runAt (depthFor openList.toList) calculation (.ofText openList.toList 0)).reported) ∧
    (Cursor.ofText openList.toList 6).rest = .chars "2 3".toList ∧
    (grammar.runAt 1 calculation (.ofText openList.toList 6)).reported.LabelledBy
      (endOfInput :: Calculator.expectations) := by
  obtain ⟨hcalculate, hlisting, hlabelled, -⟩ := errors_name_expectations openList
  have hlist : Listing.parse openList = .error openListError := by decide +kernel
  have hvalue : calculate openList =
      .error ⟨0, ["sign", "number", "constant", "function", "\"(\""]⟩ := by decide +kernel
  have hrest : (Cursor.ofText openList.toList 6).rest = .chars "2 3".toList := by decide +kernel
  exact ⟨hlist, hlisting _ hlist, ⟨_, hvalue, hcalculate _ hvalue⟩, hrest,
    (hlabelled 1 6 _ hrest).1⟩

end ZPlane
