import ZPlane.Storage.Datum

/-!
# MessagePack

`write` uses the shortest header for every length and every whole number, and eight bytes for every
real one. `read?` accepts all headers, up to a depth of nested values, and looks at nothing after
the first value.
-/

namespace ZPlane

namespace Storage

namespace MessagePack

/-! ### Writing -/

/-- The last `k` bytes of a number, the most significant first. -/
def bigEndian : (k n : Nat) → List UInt8
  | 0, _ => []
  | k + 1, n => (n >>> (8 * k)).toUInt8 :: bigEndian k n

/-- A header with a length: within the first byte if below `small`, else in the fewest of one, two
and four bytes for which there is a code. -/
def header (base : UInt8) (small : Nat) (one : Option UInt8) (two four : UInt8) (n : Nat) :
    List UInt8 :=
  if n < small then [base + n.toUInt8]
  else
    match one with
    | some code =>
      if n < 0x100 then code :: bigEndian 1 n
      else if n < 0x10000 then two :: bigEndian 2 n
      else four :: bigEndian 4 n
    | none => if n < 0x10000 then two :: bigEndian 2 n else four :: bigEndian 4 n

def writeOrdinal (n : Nat) : List UInt8 :=
  if n < 0x80 then [n.toUInt8]
  else if n < 0x100 then 0xCC :: bigEndian 1 n
  else if n < 0x10000 then 0xCD :: bigEndian 2 n
  else if n < 0x100000000 then 0xCE :: bigEndian 4 n
  else 0xCF :: bigEndian 8 n

/-- Negative numbers in eight bytes, others as ordinals. -/
def writeInteger (i : Int) : List UInt8 :=
  if 0 ≤ i then writeOrdinal i.toNat else 0xD3 :: bigEndian 8 (i + UInt64.size).toNat

def writeText (s : String) : List UInt8 :=
  let bs := s.toUTF8.data.toList
  header 0xA0 32 (some 0xD9) 0xDA 0xDB bs.length ++ bs

mutual

def write : Datum → List UInt8
  | .null | .illegible | .other => [0xC0]
  | .truth b => if b then [0xC3] else [0xC2]
  | .ordinal n => writeOrdinal n
  | .integer i => writeInteger i
  | .real x => 0xCB :: bigEndian 8 x.bits.toNat
  | .text s => writeText s
  | .bytes bs => header 0 0 (some 0xC4) 0xC5 0xC6 bs.length ++ bs
  | .list items => header 0x90 16 none 0xDC 0xDD items.length ++ writeItems items
  | .table entries => header 0x80 16 none 0xDE 0xDF entries.length ++ writeEntries entries

def writeItems : List Datum → List UInt8
  | [] => []
  | d :: ds => write d ++ writeItems ds

def writeEntries : List (Datum × Datum) → List UInt8
  | [] => []
  | e :: es => writeEntry e ++ writeEntries es

def writeEntry : Datum × Datum → List UInt8
  | (key, value) => write key ++ write value

end

/-! ### Reading -/

/-- What a header announces. -/
inductive Header where
  /-- A whole value. -/
  | atom (d : Datum)
  | text (length : Nat)
  | bytes (length : Nat)
  | list (length : Nat)
  | table (length : Nat)
  /-- A type byte and data that are skipped. -/
  | extension (length : Nat)

/-- The first `n` bytes, if there are as many, and those after them. -/
def split? : (n : Nat) → List UInt8 → Option (List UInt8 × List UInt8)
  | 0, bs => some ([], bs)
  | _ + 1, [] => none
  | n + 1, b :: bs => (split? n bs).map fun (taken, rest) ↦ (b :: taken, rest)

/-- The number that bytes stand for, the most significant first. -/
def ofBigEndian (bs : List UInt8) : Nat := bs.foldl (fun n b ↦ 256 * n + b.toNat) 0

/-- A number of `k` bytes, and what `f` makes of it. -/
def sized? {β : Type} (k : Nat) (bs : List UInt8) (f : Nat → β) : Option (β × List UInt8) :=
  (split? k bs).map fun (taken, rest) ↦ (f (ofBigEndian taken), rest)

/-- A number in two's complement, in which the negative numbers begin at `half`. -/
def signed (half n : Nat) : Datum :=
  .integer (if n < half then n else (n : Int) - 2 * half)

/-- The binary64 with the value of a binary32. A NaN keeps its sign and payload and is quiet. -/
def widen (n : Nat) : Binary64 :=
  let negative := decide (0x80000000 ≤ n)
  let exponent := n / 0x800000 % 0x100
  let fraction := n % 0x800000
  if exponent = 255 then
    if fraction = 0 then .ofRank negative Binary64.infinityRank
    else (Binary64.ofRank negative (Binary64.infinityRank + fraction <<< 29)).quiet
  else if exponent = 0 then .ofUnits negative (fraction <<< 925)
  else .ofUnits negative ((0x800000 + fraction) <<< (924 + exponent))

/-- Reads a header. -/
def readHeader? : List UInt8 → Option (Header × List UInt8)
  | [] => none
  | b :: bs =>
    let n := b.toNat
    if n < 0x80 then some (.atom (.ordinal n), bs)
    else if n < 0x90 then some (.table (n - 0x80), bs)
    else if n < 0xA0 then some (.list (n - 0x90), bs)
    else if n < 0xC0 then some (.text (n - 0xA0), bs)
    else if 0xE0 ≤ n then some (.atom (.integer ((n : Int) - 0x100)), bs)
    else
      match b with
      | 0xC0 => some (.atom .null, bs)
      | 0xC2 => some (.atom (.truth false), bs)
      | 0xC3 => some (.atom (.truth true), bs)
      | 0xC4 => sized? 1 bs .bytes
      | 0xC5 => sized? 2 bs .bytes
      | 0xC6 => sized? 4 bs .bytes
      | 0xC7 => sized? 1 bs .extension
      | 0xC8 => sized? 2 bs .extension
      | 0xC9 => sized? 4 bs .extension
      | 0xCA => sized? 4 bs fun n ↦ .atom (.real (widen n))
      | 0xCB => sized? 8 bs fun n ↦ .atom (.real ⟨n.toUInt64⟩)
      | 0xCC => sized? 1 bs fun n ↦ .atom (.ordinal n)
      | 0xCD => sized? 2 bs fun n ↦ .atom (.ordinal n)
      | 0xCE => sized? 4 bs fun n ↦ .atom (.ordinal n)
      | 0xCF => sized? 8 bs fun n ↦ .atom (.ordinal n)
      | 0xD0 => sized? 1 bs fun n ↦ .atom (signed 0x80 n)
      | 0xD1 => sized? 2 bs fun n ↦ .atom (signed 0x8000 n)
      | 0xD2 => sized? 4 bs fun n ↦ .atom (signed 0x80000000 n)
      | 0xD3 => sized? 8 bs fun n ↦ .atom (signed 0x8000000000000000 n)
      | 0xD4 => some (.extension 1, bs)
      | 0xD5 => some (.extension 2, bs)
      | 0xD6 => some (.extension 4, bs)
      | 0xD7 => some (.extension 8, bs)
      | 0xD8 => some (.extension 16, bs)
      | 0xD9 => sized? 1 bs .text
      | 0xDA => sized? 2 bs .text
      | 0xDB => sized? 4 bs .text
      | 0xDC => sized? 2 bs .list
      | 0xDD => sized? 4 bs .list
      | 0xDE => sized? 2 bs .table
      | 0xDF => sized? 4 bs .table
      | _ => none

/-- The text that bytes encode. -/
def ofText (bs : List UInt8) : Datum :=
  match String.fromUTF8? ⟨bs.toArray⟩ with
  | some s => .text s
  | none => .illegible

/-- `n` values, each read by `item`. -/
def readItems? {β : Type} (item : List UInt8 → Option (β × List UInt8)) :
    (n : Nat) → List UInt8 → Option (List β × List UInt8)
  | 0, bs => some ([], bs)
  | n + 1, bs => do
    let (d, bs) ← item bs
    let (ds, bs) ← readItems? item n bs
    some (d :: ds, bs)

/-- A key and its value. -/
def readPair? (item : List UInt8 → Option (Datum × List UInt8)) (bs : List UInt8) :
    Option ((Datum × Datum) × List UInt8) := do
  let (key, bs) ← item bs
  let (d, bs) ← item bs
  some ((key, d), bs)

/-- A value and the bytes after it, where at most `depth` values enclose one another. -/
def readValue? : (depth : Nat) → List UInt8 → Option (Datum × List UInt8)
  | depth, bs =>
    match readHeader? bs with
    | none => none
    | some (.atom d, bs) => some (d, bs)
    | some (.text n, bs) => (split? n bs).map fun (taken, rest) ↦ (ofText taken, rest)
    | some (.bytes n, bs) => (split? n bs).map fun (taken, rest) ↦ (.bytes taken, rest)
    | some (.list n, bs) =>
      match depth with
      | 0 => none
      | depth + 1 =>
        (readItems? (readValue? depth) n bs).map fun (ds, rest) ↦ (.list ds, rest)
    | some (.table n, bs) =>
      match depth with
      | 0 => none
      | depth + 1 =>
        (readItems? (readPair? (readValue? depth)) n bs).map fun (es, rest) ↦ (.table es, rest)
    | some (.extension n, bs) =>
      match depth with
      | 0 => none
      | _ + 1 => (split? (n + 1) bs).map fun (_, rest) ↦ (.other, rest)

/-- The greatest number of values that enclose one another. -/
def maxDepth : Nat := 1023

/-- The data at the start of a byte string. -/
def read? (bs : List UInt8) : Option Datum := (readValue? maxDepth bs).map Prod.fst

/-- A value as bytes. -/
def encode {α : Type} [Storable α] (a : α) : List UInt8 := write (toDatum a)

/-- The value that bytes store. -/
def decode? {α : Type} [Storable α] (bs : List UInt8) : Option α := (read? bs).bind ofDatum?

end MessagePack

end Storage

end ZPlane
