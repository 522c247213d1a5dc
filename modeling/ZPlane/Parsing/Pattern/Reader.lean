import ZPlane.Parsing.Pattern

/-!
# The text of a pattern

`Pattern.ofText?` reads alternatives, repetitions with `*`, `+` and `?`, groups, character classes
and `\s` for blanks. A text with any other sign that has a meaning of its own is no pattern.
-/

namespace ZPlane

namespace Parsing

namespace Pattern

/-- What a character stands for after a backslash. -/
def escaped? (c : Char) : Option CharRange :=
  if c = 's' then some .blank
  else if c = 't' then some (.between '\t' '\t')
  else if c = 'n' then some (.between '\n' '\n')
  else if c = 'r' then some (.between '\r' '\r')
  else if c.isAlphanum then none
  else some (.between c c)

/-- One character of a class, or a set with a letter of its own. -/
def readMember? : List Char → Option (CharRange × List Char)
  | [] => none
  | '\\' :: c :: cs => (escaped? c).map fun r ↦ (r, cs)
  | c :: cs => if c = '\\' then none else some (.between c c, cs)

/-- The range from one character to another one. -/
def through? : CharRange → CharRange → Option CharRange
  | .between first _, .between last _ => if first ≤ last then some (.between first last) else none
  | _, _ => none

/-- Characters that are no member of a class where they stand next. -/
def opensOperation : List Char → Bool
  | '[' :: _ | '&' :: '&' :: _ | '-' :: '-' :: _ | '~' :: '~' :: _ => true
  | _ => false

/-- The ranges of a character class, up to its closing bracket. A hyphen makes a range unless the
closing bracket or another hyphen is next to it. -/
def readRanges? : (fuel : Nat) → List Char → Option (List CharRange × List Char)
  | 0, _ => none
  | _ + 1, ']' :: cs => some ([], cs)
  | fuel + 1, cs => do
    if opensOperation cs then none
    else
      let (r, cs) ← readMember? cs
      match cs with
      | '-' :: d :: cs' =>
        if d = ']' ∨ d = '-' then do
          let (rs, rest) ← readRanges? fuel cs
          some (r :: rs, rest)
        else do
          let (last, cs) ← readMember? (d :: cs')
          let r ← through? r last
          let (rs, rest) ← readRanges? fuel cs
          some (r :: rs, rest)
      | cs => do
        let (rs, rest) ← readRanges? fuel cs
        some (r :: rs, rest)

/-- A character class after its opening bracket. Hyphens that come first are members, and so is a
closing bracket that comes first. -/
def readClass? (fuel : Nat) (cs : List Char) : Option (Pattern × List Char) :=
  let (negated, cs) :=
    match cs with
    | '^' :: cs => (true, cs)
    | cs => (false, cs)
  let hyphens := cs.takeWhile (· = '-')
  let (first, cs) :=
    match hyphens, cs.dropWhile (· = '-') with
    | [], ']' :: cs => ([']'], cs)
    | hyphens, cs => (hyphens, cs)
  (readRanges? fuel cs).map fun (rs, rest) ↦
    (.one negated (first.map (fun c ↦ .between c c) ++ rs), rest)

/-- Applies the repetition signs that follow. -/
def readRepetition? (p : Pattern) : List Char → Option (Pattern × List Char)
  | '*' :: '?' :: _ | '+' :: '?' :: _ | '?' :: '?' :: _ => none
  | '*' :: cs => readRepetition? p.star cs
  | '+' :: cs => readRepetition? p.plus cs
  | '?' :: cs => readRepetition? p.optional cs
  | cs => some (p, cs)

/-- Characters with a meaning of their own outside a class. -/
def isSign (c : Char) : Bool := "*+?\\^$\x7b".toList.contains c

mutual

/-- Alternatives with bars between them. -/
def readAlternatives? : (fuel : Nat) → List Char → Option (Pattern × List Char)
  | 0, _ => none
  | fuel + 1, cs =>
    match readSequence? fuel cs with
    | some (p, '|' :: cs) => (readAlternatives? fuel cs).map fun (q, rest) ↦ (.either p q, rest)
    | other => other

/-- Atoms one after another, up to a bar or a closing parenthesis. -/
def readSequence? : (fuel : Nat) → List Char → Option (Pattern × List Char)
  | 0, _ => none
  | fuel + 1, cs =>
    match cs with
    | [] => some (.empty, [])
    | '|' :: _ | ')' :: _ => some (.empty, cs)
    | _ =>
      match readAtom? fuel cs with
      | none => none
      | some (p, cs) =>
        match readRepetition? p cs with
        | none => none
        | some (p, cs) => (readSequence? fuel cs).map fun (q, rest) ↦ (.seq p q, rest)

/-- A group, a character class or a single character. -/
def readAtom? : (fuel : Nat) → List Char → Option (Pattern × List Char)
  | 0, _ => none
  | fuel + 1, cs =>
    match cs with
    | [] => none
    | '(' :: cs =>
      let body := match cs with | '?' :: ':' :: cs => cs | _ => cs
      match readAlternatives? fuel body with
      | some (p, ')' :: cs) => some (p, cs)
      | _ => none
    | '[' :: cs => readClass? fuel cs
    | '\\' :: c :: cs => (escaped? c).map fun r ↦ (.one false [r], cs)
    | '.' :: cs => some (.one true [.between '\n' '\n'], cs)
    | c :: cs => if isSign c then none else some (literal c, cs)

end

/-- The pattern that a text denotes, if it is one. -/
def ofText? (text : String) : Option Pattern :=
  let cs := text.toList
  match readAlternatives? (3 * cs.length + 3) cs with
  | some (p, []) => some p
  | _ => none

end Pattern

end Parsing

end ZPlane
