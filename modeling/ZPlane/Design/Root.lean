import ZPlane.Calculator.Grammar
import ZPlane.Complex.Text

/-!
# Roots of a design

A pole or a zero as the user wrote it: the text with its value. A text that is no expression is kept
with the error and the value zero, which adds no factor to a polynomial.
-/

namespace ZPlane

/-- A pole or a zero: its text, its value and what is wrong with the text. -/
structure Root (α : Type) where
  text : String
  value : Complex α
  error : Option String
deriving DecidableEq

namespace Root

/-- The root that a text says. -/
def parse (text : String) : Root Binary64 :=
  match Calculator.calculate text with
  | .ok z => ⟨text, z, none⟩
  | .error e => ⟨text, 0, some e.description⟩

theorem parse_of_ok {text : String} {z : Complex Binary64} (h : Calculator.calculate text = .ok z) :
    parse text = ⟨text, z, none⟩ := by
  rw [parse, h]

theorem parse_of_error {text : String} {e : Parsing.ParseError}
    (h : Calculator.calculate text = .error e) : parse text = ⟨text, 0, some e.description⟩ := by
  rw [parse, h]

/-- A root given by its value, with the text that the value is written as. -/
def ofValue (z : Complex Binary64) : Root Binary64 := ⟨z.render defaultPlaces, z, none⟩

instance {α : Type} [Zero α] : Inhabited (Root α) := ⟨⟨"0", 0, none⟩⟩

def isValid {α : Type} (r : Root α) : Bool := r.error.isNone

/-- The error; without one the value, in polar form if the text has an `e`. -/
def render (p : Nat) (r : Root Binary64) : String :=
  match r.error with
  | some error => error
  | none => if r.text.toList.contains 'e' then r.value.toPolar.render p else r.value.render p

/-- Equality up to numerical equality of the values. -/
def agrees (r s : Root Binary64) : Bool :=
  r.text = s.text && (r.value.re.agrees s.value.re && r.value.im.agrees s.value.im) &&
    r.error = s.error

end Root

end ZPlane
