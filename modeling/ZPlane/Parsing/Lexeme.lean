import ZPlane.Number.Decimal
import ZPlane.Parsing.Parser
import ZPlane.Text.Blank
import ZPlane.Text.Quoted

/-!
# Lexemes

The tokens of the calculator and of root listings: literal texts, runs of characters, numbers,
identifiers and blanks. Each takes as many characters as it can. Blanks are skipped after a token,
never before it.
-/

namespace ZPlane

namespace Parsing

/-- The number of characters at the start that satisfy `p`. -/
def runLength (p : Char → Bool) (cs : List Char) : Nat := (cs.takeWhile p).length

/-- The length of one character, if it is among a few. -/
def oneOfLength? (chars : String) : List Char → Option Nat
  | [] => none
  | c :: _ => if c ∈ chars.toList then some 1 else none

/-- The characters of identifiers: digits, letters and underscores. -/
def isWord (c : Char) : Bool := c.isAlphanum || c = '_'

/-- The length of an identifier. -/
def identifierLength? (cs : List Char) : Option Nat :=
  let n := runLength isWord cs
  if n = 0 then none else some n

/-- The length of a point and the digits after it, if there is a point. -/
def fractionLength : List Char → Nat
  | '.' :: cs => 1 + runLength Char.isDigit cs
  | _ => 0

/-- The length of a sign, if there is one. -/
def signLength : List Char → Nat
  | '+' :: _ | '-' :: _ => 1
  | _ => 0

/-- The length of an exponent with its letter and sign, if it has a digit. -/
def exponentLength : List Char → Nat
  | 'e' :: cs =>
    let sign := signLength cs
    let n := runLength Char.isDigit (cs.drop sign)
    if n = 0 then 0 else 1 + sign + n
  | _ => 0

/-- The length of a number: digits, with a fraction and an exponent where they follow. -/
def numberLength? (cs : List Char) : Option Nat :=
  let whole := runLength Char.isDigit cs
  if whole = 0 then none
  else
    let mantissa := whole + fractionLength (cs.drop whole)
    some (mantissa + exponentLength (cs.drop mantissa))

/-- A signed run of digits. -/
def readExponent? (cs : List Char) : Option Int :=
  let (negative, ds) :=
    match cs with
    | '-' :: ds => (true, ds)
    | '+' :: ds => (false, ds)
    | ds => (false, ds)
  if ds.isEmpty || !ds.all Char.isDigit then none
  else some (if negative then -(ofDigits ds : Int) else ofDigits ds)

/-- The decimal that the text of a number denotes. -/
def readNumber? (cs : List Char) : Option Decimal :=
  let whole := cs.takeWhile Char.isDigit
  let (fraction, rest) :=
    match cs.dropWhile Char.isDigit with
    | '.' :: rest => (rest.takeWhile Char.isDigit, rest.dropWhile Char.isDigit)
    | rest => ([], rest)
  if whole.isEmpty then none
  else
    match rest with
    | [] => some (.ofParts false whole fraction 0)
    | 'e' :: rest => (readExponent? rest).map (.ofParts false whole fraction)
    | _ => none

namespace Parser

variable {ρ : Type} {V : ρ → Type} {α : Type}

/-- Exactly the given text. -/
def literal (s : String) : Parser V String :=
  let cs := s.toList
  .token (Text.quoted s) fun ds ↦ if cs.isPrefixOf ds then some cs.length else none

/-- A token that is named by a pattern, the text of which stands between slashes. -/
def pattern (text : String) (size : List Char → Option Nat) : Parser V String :=
  .token ("/" ++ text ++ "/") size

/-- Any number of blanks; never fails at a place in the text. -/
def blanks : Parser V Unit :=
  (pattern "\\s*" fun cs ↦ some (runLength Text.isBlank cs)).map fun _ ↦ ()

/-- Skips the blanks after a match. -/
def lexeme (p : Parser V α) : Parser V α := p.first blanks

/-- A literal and the blanks after it. -/
def symbol (s : String) : Parser V String := (literal s).lexeme

def number : Parser V Binary64 :=
  ((pattern "[0-9]+(\\.[0-9]*)?(e[+-]?[0-9]+)?" numberLength?).filterMap fun s ↦
    (readNumber? s.toList).map Decimal.toBinary64).label "number"

def identifier : Parser V String :=
  (pattern "[0-9A-Za-z_]+" identifierLength?).label "identifier"

end Parser

end Parsing

end ZPlane
