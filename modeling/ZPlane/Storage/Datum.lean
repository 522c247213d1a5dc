import ZPlane.Number.Decimal

/-!
# Data

The values that a stored text or byte string is made of, apart from its format, and how records
and variants are read from them. A record is a table from field names to values, or the list of
all its values in order. Unknown fields are skipped and a field given twice is refused.
-/

namespace ZPlane

namespace Storage

/-- A stored value. -/
inductive Datum where
  | null
  | truth (b : Bool)
  /-- A number that may also name a field or a variant by its position. -/
  | ordinal (n : Nat)
  | integer (i : Int)
  | real (x : Binary64)
  | text (s : String)
  /-- A text whose bytes are not UTF-8: the name of nothing. -/
  | illegible
  /-- Bytes, which may stand for a text and for the list of their numbers. -/
  | bytes (bs : List UInt8)
  | list (items : List Datum)
  | table (entries : List (Datum × Datum))
  /-- Well formed, but none of the values above. -/
  | other

namespace Datum

/-- A table with field names as keys. -/
def record (fields : List (String × Datum)) : Datum :=
  .table (fields.map fun (name, d) ↦ (.text name, d))

def real? : Datum → Option Binary64
  | ordinal n => some (.ofNat n)
  | integer i => some (.ofInt i)
  | real x => some x
  | _ => none

/-- A number of things, below `2 ^ 64`. -/
def count? : Datum → Option Nat
  | ordinal n => if n < UInt64.size then some n else none
  | integer i => if 0 ≤ i ∧ i < UInt64.size then some i.toNat else none
  | _ => none

/-- A text, which may be given by its bytes. -/
def text? : Datum → Option String
  | text s => some s
  | bytes bs => String.fromUTF8? ⟨bs.toArray⟩
  | _ => none

/-- Bytes one by one as numbers. -/
def ofBytes (bs : List UInt8) : List Datum := bs.map fun b ↦ .integer b.toNat

def list? : Datum → Option (List Datum)
  | list items => some items
  | bytes bs => some (ofBytes bs)
  | _ => none

/-- The place of a key among the names; `some none` is a key that is not among them. -/
def position? (names : List String) : Datum → Option (Option Nat)
  | text s => some (names.findIdx? fun name ↦ name = s)
  | illegible => some none
  | bytes bs => some (names.findIdx? fun name ↦ name.toUTF8.data.toList = bs)
  | ordinal n => some (if n < names.length then some n else none)
  | _ => none

/-- Puts the value of an entry into the slot of its field, which has to be empty. -/
def fillSlot (names : List String) (slots : List (Option Datum)) (entry : Datum × Datum) :
    Option (List (Option Datum)) :=
  match entry.1.position? names with
  | none => none
  | some none => some slots
  | some (some k) =>
    match slots[k]? with
    | some none => some (slots.set k (some entry.2))
    | _ => none

/-- The values of a record's fields, in the order of their names. A list has to have one for each,
bytes may go on after them. -/
def fields? (names : List String) : Datum → Option (List (Option Datum))
  | list items => if items.length = names.length then some (items.map some) else none
  | bytes bs =>
    if names.length ≤ bs.length then some ((ofBytes (bs.take names.length)).map some) else none
  | table entries => entries.foldlM (fillSlot names) (List.replicate names.length none)
  | _ => none

/-- The place of a variant's name, given alone or as the key of a single null. -/
def variant? (names : List String) : Datum → Option Nat
  | table [(key, null)] => (key.position? names).join
  | d => (d.position? names).join

end Datum

/-- Values that can be stored. -/
class Storable (α : Type) where
  toDatum : α → Datum
  ofDatum? : Datum → Option α

export Storable (toDatum ofDatum?)

namespace Datum

/-- The value of a field that has to be there. -/
def required? {α : Type} [Storable α] (slot : Option Datum) : Option α := slot.bind ofDatum?

/-- The value of a field that may be missing. -/
def missing? {α : Type} [Storable (Option α)] : Option Datum → Option (Option α)
  | none => some none
  | some d => ofDatum? d

end Datum

instance : Storable Binary64 := ⟨.real, Datum.real?⟩
instance : Storable Nat := ⟨.ordinal, Datum.count?⟩
instance : Storable String := ⟨.text, Datum.text?⟩

instance {α : Type} [Storable α] : Storable (Option α) where
  toDatum
    | none => .null
    | some a => toDatum a
  ofDatum?
    | .null => some none
    | d => (ofDatum? d).map some

instance {α : Type} [Storable α] : Storable (List α) where
  toDatum as := .list (as.map toDatum)
  ofDatum? d := d.list?.bind fun items ↦ items.mapM ofDatum?

end Storage

end ZPlane
