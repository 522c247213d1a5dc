import ZPlane.Text.Blank

/-!
# Patterns

Regular expressions over character sets. A match starts at the first character, and of several
matches the preferred one counts: the left alternative before the right one, one more repetition
before none. All ways to go on are followed at once, the preferred one first. Between two
characters each choice of the pattern is come to once at most: what a second way that comes to it
could find is found already by the first one, and a repetition of nothing comes to an end.
-/

namespace ZPlane

namespace Parsing

/-- A set of characters, part of a character class. -/
inductive CharRange where
  | between (first last : Char)
  | blank
deriving DecidableEq

def CharRange.has (c : Char) : CharRange → Bool
  | between first last => decide (first ≤ c) && decide (c ≤ last)
  | blank => Text.isBlank c

/-- A pattern for the start of a text. -/
inductive Pattern where
  | empty
  /-- One character of some range, or with `negated` one of none of them. -/
  | one (negated : Bool) (ranges : List CharRange)
  | seq (p q : Pattern)
  | either (p q : Pattern)
  | plus (p : Pattern)
deriving DecidableEq

/-- Where a part stands in a pattern: the turns on the way to it, the last one first. -/
abbrev Place := List Bool

/-- A way to go on with a match. -/
inductive Thread where
  | done
  /-- One character as in `Pattern.one`. After it, `next` gives the ways to go on that come to no
  choice in a list, and the list with the choices that they come to. -/
  | take (negated : Bool) (ranges : List CharRange)
    (next : List Place → List Thread × List Place)

namespace Thread

/-- Ways to go on, with the choices come to before and after. -/
abbrev Next := List Place → List Thread × List Place

def isDone : Thread → Bool
  | done => true
  | take .. => false

/-- Comes to the choice between two ways, of which the first is preferred. -/
def choice (place : Place) (first second : Next) : Next := fun seen ↦
  if place ∈ seen then ([], seen)
  else
    let (threads, seen) := first (place :: seen)
    let (others, seen) := second seen
    (threads ++ others, seen)

/-- The ways to go on after a character, up to the one that is done. -/
def advance (c : Char) : List Thread → Next
  | [], seen | done :: _, seen => ([], seen)
  | take negated ranges next :: threads, seen =>
    if ranges.any (CharRange.has c) != negated then
      let (new, seen) := next seen
      let (others, seen) := advance c threads seen
      (new ++ others, seen)
    else advance c threads seen

/-- The number of characters of the preferred match, where `n` characters are taken and `found` is
the best match so far. A thread that is done is better, as are those before it. -/
def run : List Thread → (found : Option Nat) → (n : Nat) → List Char → Option Nat
  | [], found, _, _ => found
  | threads, found, n, cs =>
    let found := if threads.any isDone then some n else found
    match cs with
    | [] => found
    | c :: cs => run (advance c threads []).1 found (n + 1) cs

end Thread

namespace Pattern

open Thread (Next)

def literal (c : Char) : Pattern := .one false [.between c c]
def optional (p : Pattern) : Pattern := .either p .empty
def star (p : Pattern) : Pattern := p.plus.optional

/-- After a repetition: `step` once more, or the rest. Further repetitions that go on take
characters, so a text bounds their number. -/
def repeated (place : Place) (step : Next → Next) (rest : Next) : (bound : List Char) → Next
  | [] => Thread.choice place (fun seen ↦ ([], seen)) rest
  | _ :: bound => Thread.choice place (step (repeated place step rest bound)) rest

/-- The ways to match the pattern that stands at a place, and then the rest. -/
def threads (text : List Char) : Pattern → Place → (rest : Next) → Next
  | empty, _, rest => rest
  | one negated ranges, _, rest => fun seen ↦ ([.take negated ranges rest], seen)
  | seq p q, place, rest =>
    threads text p (false :: place) (threads text q (true :: place) rest)
  | either p q, place, rest =>
    Thread.choice place (threads text p (false :: place) rest)
      (threads text q (true :: place) rest)
  | plus p, place, rest =>
    let step := threads text p (false :: place)
    step (repeated place step rest text)

/-- The number of characters of the preferred match at the start of a text. -/
def matchLength? (p : Pattern) (cs : List Char) : Option Nat :=
  Thread.run (threads cs p [] (fun seen ↦ ([.done], seen)) []).1 none 0 cs

end Pattern

end Parsing

end ZPlane
