import ZPlane.Parsing.Error

/-!
# Parsers

A parser is a term built from primitives and combinators, and `run` gives its meaning: a function
from a place in a text to a success or a failure, each with the hints collected on the way. Failure
is an ordinary value, on which alternatives and repetitions branch. Rules are named, so that a
grammar may refer to itself; a run follows rule calls to a given depth, and one that needs more ends
in `overrun`, which is neither success nor failure and which every combinator passes on.
-/

namespace ZPlane

namespace Parsing

/-- A parser for values of the given type. The rule `r` of its grammar parses values of `V r`. -/
inductive Parser {ρ : Type} (V : ρ → Type) : Type → Type 1 where
  /-- Succeeds with a value and takes nothing. -/
  | pure {α : Type} (a : α) : Parser V α
  /-- Takes as many characters as `size` says of those that follow. A failure is labelled `name`. -/
  | token (name : String) (size : List Char → Option Nat) : Parser V String
  /-- Succeeds at the end of the text and beyond it. -/
  | eof : Parser V Unit
  /-- The parser of a rule. -/
  | rule (r : ρ) : Parser V (V r)
  | map {α β : Type} (f : α → β) (p : Parser V α) : Parser V β
  /-- Goes on with the parser that the value chooses. -/
  | bind {α β : Type} (p : Parser V α) (f : α → Parser V β) : Parser V β
  /-- One after the other. -/
  | both {α β : Type} (p : Parser V α) (q : Parser V β) : Parser V (α × β)
  /-- The first; if it fails the second, from the same place. -/
  | either {α : Type} (p q : Parser V α) : Parser V α
  /-- Rejects a match whose value has no image. -/
  | filterMap {α β : Type} (f : α → Option β) (p : Parser V α) : Parser V β
  /-- Replaces the hints of a failure by one label, at the furthest offset reached. -/
  | label {α : Type} (name : String) (p : Parser V α) : Parser V α
  /-- Pairs the value with the bytes it was read from. -/
  | spanned {α : Type} (p : Parser V α) : Parser V (α × Span)
  /-- All of them, one after another. -/
  | sequence {α : Type} {n : Nat} (ps : Fin n → Parser V α) : Parser V (List α)
  /-- As often as it matches and takes something. -/
  | many {α : Type} (p : Parser V α) : Parser V (List α)
  /-- Matches or takes nothing. -/
  | optional {α : Type} (p : Parser V α) : Parser V (Option α)
  /-- Succeeds where `p` fails, and takes nothing. -/
  | not {α : Type} (p : Parser V α) : Parser V Unit

/-- How a run ends. -/
inductive Outcome (α : Type) where
  | success (place : Cursor) (value : α) (hints : Hints)
  | failure (hints : Hints)
  /-- The depth of rule calls did not suffice. -/
  | overrun

namespace Outcome

variable {α β : Type}

def map (f : α → β) : Outcome α → Outcome β
  | success c a h => .success c (f a) h
  | failure h => .failure h
  | overrun => .overrun

/-- Puts earlier hints in front. -/
def after (earlier : Hints) : Outcome α → Outcome α
  | success c a h => .success c a (earlier.join h)
  | failure h => .failure (earlier.join h)
  | overrun => .overrun

/-- Goes on from a success, keeping its hints in front of the later ones. -/
def andThen (o : Outcome α) (next : Cursor → α → Outcome β) : Outcome β :=
  match o with
  | success c a h => (next c a).after h
  | failure h => .failure h
  | overrun => .overrun

end Outcome

/-- The label for the end of the text. -/
def endOfInput : String := "end of input"

namespace Parser

variable {α β γ : Type}

/-- Takes a token at a place. -/
def takeToken (name : String) (size : List Char → Option Nat) (c : Cursor) : Outcome String :=
  match c.chars? with
  | none => .failure (.expected c.offset name)
  | some cs =>
    match size cs with
    | none => .failure (.expected c.offset name)
    | some n =>
      let taken := cs.take n
      .success ⟨c.offset + Text.byteLength taken, .chars (cs.drop n)⟩ (String.ofList taken) .empty

/-- Steps in a row, each from where the last one ended, collecting values and hints. -/
def runAll : {n : Nat} → (Fin n → Cursor → Outcome α) → Cursor → Hints → List α → Outcome (List α)
  | 0, _, c, h, values => .success c values.reverse h
  | _ + 1, steps, c, h, values =>
    match steps 0 c with
    | .success c a h' => runAll (fun k ↦ steps k.succ) c (h.join h') (a :: values)
    | .failure h' => .failure (h.join h')
    | .overrun => .overrun

/-- Repeats a step while it succeeds further on; the hints of the last attempt are kept. Each
repetition takes a character at least, so a list with the characters ahead bounds their number. -/
def runMany (step : Cursor → Outcome α) :
    (bound : List Char) → Cursor → Hints → List α → Outcome (List α)
  | bound, c, h, values =>
    match step c with
    | .success c' a h' =>
      if c.offset < c'.offset then
        match bound with
        | [] => .overrun
        | _ :: bound => runMany step bound c' (h.join h') (a :: values)
      else .success c values.reverse (h.join h')
    | .failure h' => .success c values.reverse (h.join h')
    | .overrun => .overrun

variable {ρ : Type} {V : ρ → Type}

/-- Runs a parser at a place, with `call` for the rules. -/
def run (call : (r : ρ) → Cursor → Outcome (V r)) {α : Type} : Parser V α → Cursor → Outcome α
  | pure a, c => .success c a .empty
  | token name size, c => takeToken name size c
  | eof, c => if c.atEnd then .success c () .empty else .failure (.expected c.offset endOfInput)
  | rule r, c => call r c
  | map f p, c => (run call p c).map f
  | bind p f, c => (run call p c).andThen fun c a ↦ run call (f a) c
  | both p q, c => (run call p c).andThen fun c a ↦ (run call q c).map (a, ·)
  | either p q, c =>
    match run call p c with
    | .failure h =>
      match run call q c with
      | .success c b h' => .success c b (h.join h')
      | .failure h' => .failure (h.deepest h')
      | .overrun => .overrun
    | other => other
  | filterMap f p, c =>
    match run call p c with
    | .success c' a h =>
      match f a with
      | some b => .success c' b h
      | none => .failure (h.join (.mark c.offset))
    | .failure h => .failure h
    | .overrun => .overrun
  | label name p, c =>
    match run call p c with
    | .failure h => .failure (.expected (h.furthest?.getD c.offset) name)
    | other => other
  | spanned p, c =>
    match run call p c with
    | .success c' a h => .success c' (a, ⟨c.offset, c'.offset⟩) h
    | .failure h => .failure h
    | .overrun => .overrun
  | sequence ps, c => runAll (fun k ↦ run call (ps k)) c .empty []
  | many p, c => runMany (run call p) c.ahead c .empty []
  | optional p, c =>
    match run call p c with
    | .success c' a h => .success c' (some a) h
    | .failure h => .success c none h
    | .overrun => .overrun
  | not p, c =>
    match run call p c with
    | .success _ _ _ => .failure (.mark c.offset)
    | .failure _ => .success c () .empty
    | .overrun => .overrun

/-! ### Derived parsers -/

/-- Rejects a match whose value fails the test. -/
def filter (test : α → Bool) (p : Parser V α) : Parser V α :=
  p.filterMap fun a ↦ if test a then some a else none

/-- Both, keeping the first value. -/
def first (p : Parser V α) (q : Parser V β) : Parser V α := (p.both q).map Prod.fst

/-- Both, keeping the second value. -/
def second (p : Parser V α) (q : Parser V β) : Parser V β := (p.both q).map Prod.snd

/-- The first of several alternatives to match. -/
def choice (p : Parser V α) (ps : List (Parser V α)) : Parser V α := ps.foldl .either p

/-- One or more items with separators between them. -/
def sepBy (item : Parser V α) (separator : Parser V β) : Parser V (List α) :=
  (item.both (separator.second item).many).map fun (a, as) ↦ a :: as

end Parser

/-- A parser for each rule. -/
abbrev Grammar {ρ : Type} (V : ρ → Type) : Type 1 := (r : ρ) → Parser V (V r)

namespace Grammar

variable {ρ : Type} {V : ρ → Type}

/-- Runs a rule with calls up to the given depth, its own included. -/
def call (g : Grammar V) : (depth : Nat) → (r : ρ) → Cursor → Outcome (V r)
  | 0, _, _ => .overrun
  | depth + 1, r, c => (g r).run (call g depth) c

/-- Runs a parser with rule calls up to the given depth. -/
def runAt (g : Grammar V) (depth : Nat) {α : Type} (p : Parser V α) (c : Cursor) : Outcome α :=
  p.run (g.call depth) c

/-- Why a whole text was not parsed. -/
inductive Failure where
  | unexpected (error : ParseError)
  | overrun
deriving DecidableEq

/-- Parses a whole text. What is left over counts as an end of the text that was expected. -/
def parse (g : Grammar V) (depth : Nat) {α : Type} (p : Parser V α) (cs : List Char) :
    Except Failure α :=
  match g.runAt depth p (.ofText cs 0) with
  | .success ⟨_, .chars []⟩ a _ => .ok a
  | .success c _ h => .error (.unexpected (.ofHints (h.join (.expected c.offset endOfInput))))
  | .failure h => .error (.unexpected (.ofHints h))
  | .overrun => .error .overrun

end Grammar

end Parsing

end ZPlane
