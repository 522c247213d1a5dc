import ZPlane.Parsing.Cursor
import ZPlane.Parsing.Hints

/-!
# Parse errors

An error names what was expected at the furthest offset that any branch of the parse reached.
-/

namespace ZPlane

namespace Parsing

/-- What was expected, and at which byte offset. -/
structure ParseError where
  offset : Nat
  expected : List String
deriving DecidableEq

namespace ParseError

/-- The labels at the furthest offset of the hints. -/
def ofHints (h : Hints) : ParseError :=
  match h.furthest? with
  | some offset => ⟨offset, h.labelsAt offset⟩
  | none => ⟨0, []⟩

/-- Alternatives with commas between them, and "or" before the last. -/
def alternatives : List String → String
  | [] => ""
  | [a] => a
  | [a, b] => a ++ " or " ++ b
  | a :: as => a ++ ", " ++ alternatives as

def message (e : ParseError) : String :=
  (if e.expected.isEmpty then "unexpected input" else "expected " ++ alternatives e.expected) ++
    " at index " ++ toString e.offset

/-- The message with the kind of error in front. -/
def description (e : ParseError) : String := "ParseError: " ++ e.message

/-- The byte offset of the last line break, if there is one; `here` is the offset of the text. -/
def lastBreak? : (here : Nat) → List Char → Option Nat
  | _, [] => none
  | here, c :: cs =>
    match lastBreak? (here + c.utf8Size) cs with
    | some n => some n
    | none => if c = '\n' then some here else none

/-- The line and the column, both from one, of the offset in its text. An offset beyond the end
stands at the end, and the lines of an offset inside a character are those of the whole text. The
column is counted from the last line break, so there is none if that is behind the offset. -/
def location? (e : ParseError) (cs : List Char) : Option (Nat × Nat) :=
  let offset := min e.offset (Text.byteLength cs)
  let before := (upTo? cs offset).getD cs
  let line := before.count '\n' + 1
  match lastBreak? 0 before with
  | some n => if n < offset then some (line, offset - n) else none
  | none => some (line, offset + 1)

end ParseError

end Parsing

end ZPlane
