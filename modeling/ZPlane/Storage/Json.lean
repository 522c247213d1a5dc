import ZPlane.Number.Text
import ZPlane.Storage.Datum

/-!
# JSON

`write` lays data out over indented lines, and `read?` accepts any JSON text. A number that is not
finite is written as `null`. A number too large for binary64 and a text with half a surrogate pair
are well formed, so they may stand in a field that is skipped, but they are no values.
-/

namespace ZPlane

namespace Storage

namespace Json

/-! ### Writing -/

def doubleQuote : Char := '\x22'

/-- The last four hexadecimal digits of a number. -/
def hex4 (n : Nat) : List Char :=
  [n / 4096 % 16, n / 256 % 16, n / 16 % 16, n % 16].map Nat.digitChar

/-- One character inside quotes. -/
def writeChar (c : Char) : List Char :=
  if c = doubleQuote ∨ c = '\\' then ['\\', c]
  else if c = '\x08' then ['\\', 'b']
  else if c = '\t' then ['\\', 't']
  else if c = '\n' then ['\\', 'n']
  else if c = '\x0c' then ['\\', 'f']
  else if c = '\r' then ['\\', 'r']
  else if c.toNat < 0x20 then '\\' :: 'u' :: hex4 c.toNat
  else [c]

def writeText (s : String) : List Char :=
  doubleQuote :: s.toList.flatMap writeChar ++ [doubleQuote]

/-- The leading exponents of numbers that are written without an exponent. -/
def isPlain (lead : Int) : Bool := decide (-5 ≤ lead) && decide (lead ≤ 15)

/-- An exponent with its sign. -/
def writeExponent (e : Int) : List Char :=
  'e' :: (if 0 ≤ e then '+' else '-') :: digits e.natAbs

/-- The shortest text that reads back as the number. -/
def writeReal (x : Binary64) : List Char :=
  if x.isFinite = false then "null".toList
  else if x.rank = 0 then x.signText ++ "0.0".toList
  else
    let d := x.shortest
    x.signText ++ if isPlain d.lead then d.plain else d.mantissa ++ writeExponent d.lead

/-- A line break and the indentation after it. -/
def newLine (indent : Nat) : List Char := '\n' :: List.replicate indent ' '

mutual

/-- Data as text, in a line that is indented by `indent`. -/
def write (indent : Nat) : Datum → List Char
  | .null => "null".toList
  | .truth b => if b then "true".toList else "false".toList
  | .ordinal n => digits n
  | .integer i => (if i < 0 then ['-'] else []) ++ digits i.natAbs
  | .real x => writeReal x
  | .text s => writeText s
  | .list [] => "[]".toList
  | .list items => '[' :: writeItems (indent + 2) items ++ newLine indent ++ [']']
  | .table [] => ['\x7b', '\x7d']
  | .table entries => '\x7b' :: writeEntries (indent + 2) entries ++ newLine indent ++ ['\x7d']
  | .illegible | .bytes _ | .other => "null".toList

/-- Items on lines of their own. -/
def writeItems (indent : Nat) : List Datum → List Char
  | [] => []
  | d :: ds =>
    newLine indent ++ write indent d ++ (if ds.isEmpty then [] else [',']) ++ writeItems indent ds

/-- Entries on lines of their own. -/
def writeEntries (indent : Nat) : List (Datum × Datum) → List Char
  | [] => []
  | e :: es =>
    newLine indent ++ writeEntry indent e ++ (if es.isEmpty then [] else [',']) ++
      writeEntries indent es

/-- A key and its value. -/
def writeEntry (indent : Nat) : Datum × Datum → List Char
  | (key, value) => write indent key ++ ':' :: ' ' :: write indent value

end

/-! ### Reading -/

def isBlank (c : Char) : Bool := c = ' ' || c = '\n' || c = '\t' || c = '\r'

def skipBlanks (cs : List Char) : List Char := cs.dropWhile isBlank

/-- What a text in quotes is made of: characters and escaped UTF-16 units. -/
inductive Piece where
  | char (c : Char)
  | unit (n : Nat)
deriving DecidableEq

def hexValue? (c : Char) : Option Nat :=
  if '0' ≤ c ∧ c ≤ '9' then some (c.toNat - '0'.toNat)
  else if 'a' ≤ c ∧ c ≤ 'f' then some (c.toNat - 'a'.toNat + 10)
  else if 'A' ≤ c ∧ c ≤ 'F' then some (c.toNat - 'A'.toNat + 10)
  else none

def hexUnit? (a b c d : Char) : Option Nat := do
  some ((((← hexValue? a) * 16 + (← hexValue? b)) * 16 + (← hexValue? c)) * 16 + (← hexValue? d))

/-- The character that a letter stands for after a backslash. -/
def escaped? (c : Char) : Option Char :=
  if c = doubleQuote ∨ c = '\\' ∨ c = '/' then some c
  else if c = 'b' then some '\x08'
  else if c = 'f' then some '\x0c'
  else if c = 'n' then some '\n'
  else if c = 'r' then some '\r'
  else if c = 't' then some '\t'
  else none

/-- The pieces up to the closing quote, and what is after it. -/
def readPieces? : List Char → Option (List Piece × List Char)
  | [] => none
  | '\\' :: 'u' :: a :: b :: c :: d :: cs =>
    match hexUnit? a b c d with
    | none => none
    | some n => (readPieces? cs).map fun (ps, rest) ↦ (.unit n :: ps, rest)
  | '\\' :: c :: cs =>
    match escaped? c with
    | none => none
    | some c => (readPieces? cs).map fun (ps, rest) ↦ (.char c :: ps, rest)
  | c :: cs =>
    if c = doubleQuote then some ([], cs)
    else if c.toNat < 0x20 ∨ c = '\\' then none
    else (readPieces? cs).map fun (ps, rest) ↦ (.char c :: ps, rest)

/-- The characters of the pieces; none if a surrogate has no partner. -/
def joinPieces? : List Piece → Option (List Char)
  | [] => some []
  | .char c :: ps => (joinPieces? ps).map (c :: ·)
  | .unit m :: .unit n :: ps =>
    if 0xD800 ≤ m ∧ m < 0xDC00 then
      if 0xDC00 ≤ n ∧ n < 0xE000 then
        let c := Char.ofNat ((m - 0xD800) * 0x400 + (n - 0xDC00) + 0x10000)
        (joinPieces? ps).map (c :: ·)
      else none
    else if 0xDC00 ≤ m ∧ m < 0xE000 then none
    else (joinPieces? (.unit n :: ps)).map (Char.ofNat m :: ·)
  | .unit m :: ps =>
    if 0xD800 ≤ m ∧ m < 0xE000 then none else (joinPieces? ps).map (Char.ofNat m :: ·)

/-- The text whose opening quote is read, as data. -/
def readText? (cs : List Char) : Option (Datum × List Char) :=
  match readPieces? cs with
  | none => none
  | some (ps, rest) =>
    match joinPieces? ps with
    | some text => some (.text (String.ofList text), rest)
    | none => some (.other, rest)

/-- A whole number without a fraction or an exponent: an integer if it fits a word. -/
def ofWhole (negative : Bool) (n : Nat) : Datum :=
  if negative then
    if n = 0 ∨ 0x8000000000000000 < n then .real (.ofRatio true n 1) else .integer (-n)
  else if n < UInt64.size then .integer n
  else .real (.ofRatio false n 1)

/-- The nearest binary64, unless that is infinite. -/
def finite (d : Datum) : Datum :=
  match d with
  | .real x => if x.isFinite then d else .other
  | d => d

/-- The fraction digits after a point, if there is one. -/
def readFraction? : List Char → Option (List Char × List Char)
  | '.' :: cs =>
    let ds := cs.takeWhile Char.isDigit
    if ds.isEmpty then none else some (ds, cs.dropWhile Char.isDigit)
  | cs => some ([], cs)

/-- The exponent after its letter, if there is one. -/
def readExponent? (cs : List Char) : Option (Option Int × List Char) :=
  match cs with
  | c :: cs' =>
    if c = 'e' ∨ c = 'E' then
      let (negative, ds) :=
        match cs' with
        | '-' :: ds => (true, ds)
        | '+' :: ds => (false, ds)
        | ds => (false, ds)
      let e : Int := ofDigits (ds.takeWhile Char.isDigit)
      if (ds.takeWhile Char.isDigit).isEmpty then none
      else some (some (if negative then -e else e), ds.dropWhile Char.isDigit)
    else some (none, cs)
  | [] => some (none, [])

/-- The digits before the point: a single zero, or no leading zero. -/
def readWhole? : List Char → Option (List Char × List Char)
  | '0' :: cs => some (['0'], cs)
  | cs =>
    let ds := cs.takeWhile Char.isDigit
    if ds.isEmpty then none else some (ds, cs.dropWhile Char.isDigit)

def readNumber? (cs : List Char) : Option (Datum × List Char) := do
  let (negative, cs) :=
    match cs with
    | '-' :: cs => (true, cs)
    | cs => (false, cs)
  let (whole, cs) ← readWhole? cs
  let (fraction, cs) ← readFraction? cs
  let (exponent, cs) ← readExponent? cs
  let d :=
    if fraction.isEmpty ∧ exponent.isNone then ofWhole negative (ofDigits whole)
    else .real (Decimal.ofParts negative whole fraction (exponent.getD 0)).toBinary64
  some (finite d, cs)

/-- Items up to a closing bracket, each read by `item`. -/
def readItems? (item : List Char → Option (Datum × List Char)) :
    (fuel : Nat) → List Char → Option (List Datum × List Char)
  | 0, _ => none
  | fuel + 1, cs => do
    let (d, cs) ← item cs
    match skipBlanks cs with
    | ',' :: cs => do
      let (ds, cs) ← readItems? item fuel cs
      some (d :: ds, cs)
    | ']' :: cs => some ([d], cs)
    | _ => none

/-- Entries up to a closing brace, with values read by `item`. -/
def readEntries? (item : List Char → Option (Datum × List Char)) :
    (fuel : Nat) → List Char → Option (List (Datum × Datum) × List Char)
  | 0, _ => none
  | fuel + 1, cs =>
    match skipBlanks cs with
    | [] => none
    | c :: cs =>
      if c ≠ doubleQuote then none
      else do
        let (key, cs) ← readText? cs
        match skipBlanks cs with
        | ':' :: cs => do
          let (d, cs) ← item cs
          match skipBlanks cs with
          | ',' :: cs => do
            let (es, cs) ← readEntries? item fuel cs
            some ((key, d) :: es, cs)
          | '\x7d' :: cs => some ([(key, d)], cs)
          | _ => none
        | _ => none

/-- A value and the text after it. The fuel bounds the depth and the length of lists. -/
def readValue? : (fuel : Nat) → List Char → Option (Datum × List Char)
  | 0, _ => none
  | fuel + 1, cs =>
    match skipBlanks cs with
    | 'n' :: 'u' :: 'l' :: 'l' :: cs => some (.null, cs)
    | 't' :: 'r' :: 'u' :: 'e' :: cs => some (.truth true, cs)
    | 'f' :: 'a' :: 'l' :: 's' :: 'e' :: cs => some (.truth false, cs)
    | '[' :: cs =>
      match skipBlanks cs with
      | ']' :: cs => some (.list [], cs)
      | cs => (readItems? (readValue? fuel) fuel cs).map fun (ds, rest) ↦ (.list ds, rest)
    | '\x7b' :: cs =>
      match skipBlanks cs with
      | '\x7d' :: cs => some (.table [], cs)
      | cs => (readEntries? (readValue? fuel) fuel cs).map fun (es, rest) ↦ (.table es, rest)
    | c :: cs => if c = doubleQuote then readText? cs else readNumber? (c :: cs)
    | [] => none

/-- The data that a whole text denotes. -/
def read? (cs : List Char) : Option Datum :=
  match readValue? (cs.length + 1) cs with
  | some (d, rest) => if (skipBlanks rest).isEmpty then some d else none
  | none => none

/-- A value as JSON text. -/
def encode {α : Type} [Storable α] (a : α) : String := String.ofList (write 0 (toDatum a))

/-- The value that a JSON text stores. -/
def decode? {α : Type} [Storable α] (s : String) : Option α := (read? s.toList).bind ofDatum?

end Json

end Storage

end ZPlane
