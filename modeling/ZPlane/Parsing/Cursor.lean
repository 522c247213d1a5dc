import ZPlane.Text.Blank

/-!
# Places in a text

An offset counts bytes. It may stand between two characters, inside one, or beyond the end, and the
three are told apart once, when a cursor is made; parsers then move over characters.
-/

namespace ZPlane

namespace Parsing

/-- What a text has from a byte offset on. -/
inductive Remainder where
  /-- The offset is a character boundary. -/
  | chars (cs : List Char)
  /-- The offset is inside a character. -/
  | inside
  /-- The offset is beyond the end. -/
  | beyond
deriving DecidableEq

/-- What `cs` has from the byte offset on. -/
def Remainder.after : List Char → (offset : Nat) → Remainder
  | cs, 0 => .chars cs
  | [], _ + 1 => .beyond
  | c :: cs, n + 1 => if c.utf8Size ≤ n + 1 then after cs (n + 1 - c.utf8Size) else .inside

/-- A place in a text, with what comes after it. -/
structure Cursor where
  offset : Nat
  rest : Remainder
deriving DecidableEq

namespace Cursor

/-- The place of a text at a byte offset. -/
def ofText (cs : List Char) (offset : Nat) : Cursor := ⟨offset, .after cs offset⟩

/-- The characters after the place; none if it is not a character boundary of the text. -/
def chars? (c : Cursor) : Option (List Char) :=
  match c.rest with
  | .chars cs => some cs
  | _ => none

/-- The place is at the end of the text or beyond it. -/
def atEnd (c : Cursor) : Bool :=
  match c.rest with
  | .chars [] | .beyond => true
  | _ => false

/-- The characters after the place, where there are any. -/
def ahead (c : Cursor) : List Char := c.chars?.getD []

end Cursor

/-- A range of bytes of a text. -/
structure Span where
  start : Nat
  stop : Nat
deriving DecidableEq

/-- The characters of `cs` up to a byte offset, if that is a character boundary of the text. -/
def upTo? : List Char → (offset : Nat) → Option (List Char)
  | _, 0 => some []
  | [], _ + 1 => none
  | c :: cs, n + 1 =>
    if c.utf8Size ≤ n + 1 then (upTo? cs (n + 1 - c.utf8Size)).map (c :: ·) else none

/-- The text of a span without blanks at its ends; empty if the span is not one of the text. -/
def Span.slice (s : Span) (cs : List Char) : List Char :=
  if s.stop < s.start then []
  else
    match (Cursor.ofText cs s.start).chars? with
    | some rest => Text.trim ((upTo? rest (s.stop - s.start)).getD [])
    | none => []

end Parsing

end ZPlane
