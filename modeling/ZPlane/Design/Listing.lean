import ZPlane.Design.Root

/-!
# Listings of roots

A listing is text such as `zeros = [ 1, -1 ]`, one list of roots on a line or after a semicolon.
Each slot of a list is an expression, and its root keeps the text of the slot without the blanks
around it.
-/

namespace ZPlane

open Parsing Calculator

/-- A label with its roots. -/
structure Entry (α : Type) where
  label : String
  roots : List (Root α)
deriving DecidableEq

def Entry.render {α : Type} (e : Entry α) : String :=
  if e.roots.isEmpty then e.label ++ " = []"
  else e.label ++ " = [ " ++ ", ".intercalate (e.roots.map Root.text) ++ " ]"

namespace Listing

/-- The length of a line break or a semicolon with the blanks after it. -/
def separatorLength? : List Char → Option Nat
  | ';' :: cs | '\n' :: cs => some (1 + runLength Text.isBlank cs)
  | _ => none

section Parts

variable {ρ : Type} {V : ρ → Type}

/-- Blanks within a line. -/
def gap : Parser V String :=
  .pattern "[ \\t\\r]*" fun cs ↦ some (runLength (fun c ↦ c = ' ' || c = '\t' || c = '\r') cs)

/-- A line break or a semicolon, and the blanks after it. -/
def separator : Parser V String :=
  (Parser.pattern "[;\\n]\\s*" separatorLength?).label "separator"

/-- The slots of a list, with their places. -/
def slots (inner : Parser V Expr) : Parser V (List (Expr × Span)) :=
  (inner.spanned.sepBy (Parser.symbol ",")).optional.map fun s ↦ s.getD []

def entry (inner : Parser V Expr) : Parser V (String × List (Expr × Span)) :=
  ((((((Parser.identifier.first gap).first (.literal "=")).first gap).first (.symbol "[")).both
    (slots inner)).first (.literal "]")).first gap

def entries (inner : Parser V Expr) : Parser V (List (String × List (Expr × Span))) :=
  ((Parser.blanks.second ((entry inner).sepBy separator).optional).first separator.many).map
    fun es ↦ es.getD []

end Parts

/-- A whole listing over the calculator's grammar. -/
def listing : Parser (fun _ : Rule ↦ Expr) (List (String × List (Expr × Span))) :=
  entries (.rule .expression)

/-- The entries of a listing. Their labels are not looked at. -/
def parse (text : String) : Except ParseError (List (Entry Binary64)) :=
  let cs := text.toList
  (parseWith listing cs).map fun es ↦ es.map fun (label, slots) ↦
    ⟨label, slots.map fun (e, span) ↦ ⟨String.ofList (span.slice cs), e.value, none⟩⟩

/-- Entries one below the other. -/
def render {α : Type} (es : List (Entry α)) : String := "\n".intercalate (es.map Entry.render)

end Listing

end ZPlane
