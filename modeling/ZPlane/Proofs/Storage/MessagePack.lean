import Mathlib
import ZPlane.Storage.MessagePack
import ZPlane.Proofs.Storage.Record

/-!
# MessagePack is lossless

Reading gives back what was written, whatever bytes follow it: each header is read back by its code
(`readHeader?_text` and its siblings), the items of a list and the entries of a table one after
another, and so all data of records within the limits of the format (`readValue?_write`).  Hence
a design is read back as it was, with every number bit for bit (`decode?_encode`).
-/

namespace ZPlane

namespace Storage

namespace MessagePack

/-! ### Numbers as bytes -/

@[simp]
theorem length_bigEndian (k n : ℕ) : (bigEndian k n).length = k := by
  induction k with
  | zero => rfl
  | succ k ih => rw [bigEndian, List.length_cons, ih]

/-- The first byte is the most significant one. -/
theorem ofBigEndian_cons (b : UInt8) (bs : List UInt8) :
    ofBigEndian (b :: bs) = 256 ^ bs.length * b.toNat + ofBigEndian bs := by
  have hfold (n : ℕ) (cs : List UInt8) : cs.foldl (fun n b ↦ 256 * n + b.toNat) n =
      256 ^ cs.length * n + ofBigEndian cs := by
    induction cs generalizing n with
    | nil => simp [ofBigEndian]
    | cons c cs ih =>
        rw [ofBigEndian, List.foldl_cons, List.foldl_cons, ih, ih (256 * 0 + c.toNat),
          List.length_cons]
        ring
  rw [ofBigEndian, List.foldl_cons, hfold]
  simp

/-- The bytes of a number stand for it, as far as they go. -/
theorem ofBigEndian_bigEndian (k n : ℕ) : ofBigEndian (bigEndian k n) = n % 256 ^ k := by
  induction k with
  | zero => simp [bigEndian, ofBigEndian, Nat.mod_one]
  | succ k ih =>
      have hbyte : (n >>> (8 * k)).toUInt8.toNat = n / 256 ^ k % 256 := by
        rw [Nat.shiftRight_eq_div_pow, pow_mul]
        rfl
      rw [bigEndian, ofBigEndian_cons, ih, hbyte, length_bigEndian, Nat.mod_pow_succ, add_comm]

theorem split?_append (taken rest : List UInt8) :
    split? taken.length (taken ++ rest) = some (taken, rest) := by
  induction taken with
  | nil => rfl
  | cons b bs ih => rw [List.length_cons, List.cons_append, split?, ih, Option.map_some]

/-- A size that fits its bytes is read back. -/
theorem sized?_bigEndian {β : Type} {k n : ℕ} (hn : n < 256 ^ k) (rest : List UInt8)
    (f : ℕ → β) : sized? k (bigEndian k n ++ rest) f = some (f n, rest) := by
  have hsplit := split?_append (bigEndian k n) rest
  rw [length_bigEndian] at hsplit
  simp only [sized?, hsplit, Option.map_some, ofBigEndian_bigEndian, Nat.mod_eq_of_lt hn]

/-! ### Headers -/

/-- A header is read back if its codes announce what it is for. -/
theorem readHeader?_header {base two four : UInt8} {one : Option UInt8} {small n : ℕ}
    {kind : ℕ → Header} (rest : List UInt8)
    (hsmall : n < small → readHeader? ((base + n.toUInt8) :: rest) = some (kind n, rest))
    (hone : ∀ code ∈ one, ∀ bs, readHeader? (code :: bs) = sized? 1 bs kind)
    (htwo : ∀ bs, readHeader? (two :: bs) = sized? 2 bs kind)
    (hfour : ∀ bs, readHeader? (four :: bs) = sized? 4 bs kind) (hn : n < 2 ^ 32) :
    readHeader? (header base small one two four n ++ rest) = some (kind n, rest) := by
  have hwide : readHeader? ((if n < 0x10000 then two :: bigEndian 2 n else four :: bigEndian 4 n)
      ++ rest) = some (kind n, rest) := by
    split
    case isTrue h => rw [List.cons_append, htwo, sized?_bigEndian h]
    case isFalse => rw [List.cons_append, hfour, sized?_bigEndian hn]
  unfold header
  split
  case isTrue h => exact hsmall h
  case isFalse =>
    cases one with
    | none => exact hwide
    | some code =>
        by_cases h : n < 0x100
        · simp only [if_pos h]
          rw [List.cons_append, hone code rfl, sized?_bigEndian h]
        · simp only [if_neg h]
          exact hwide

/-- A small number added to a marker can be told from it. -/
theorem toNat_add_toUInt8 {base : UInt8} {n : ℕ} (h : base.toNat + n < 256) :
    (base + n.toUInt8).toNat = base.toNat + n := by
  have hn : n.toUInt8.toNat = n := Nat.mod_eq_of_lt (show n < 256 by omega)
  rw [UInt8.toNat_add, hn, Nat.mod_eq_of_lt h]

theorem readHeader?_text {n : ℕ} (hn : n < 2 ^ 32) (rest : List UInt8) :
    readHeader? (header 0xA0 32 (some 0xD9) 0xDA 0xDB n ++ rest) = some (.text n, rest) := by
  refine readHeader?_header rest (fun hsmall ↦ ?_) ?_ (fun _ ↦ rfl) (fun _ ↦ rfl) hn
  · have hb : (0xA0 + n.toUInt8).toNat = 0xA0 + n := toNat_add_toUInt8 (by simp; omega)
    simp (disch := omega) only [readHeader?, hb, if_pos, if_neg, Nat.add_sub_cancel_left]
  · rintro _ ⟨⟩ bs
    rfl

theorem readHeader?_list {n : ℕ} (hn : n < 2 ^ 32) (rest : List UInt8) :
    readHeader? (header 0x90 16 none 0xDC 0xDD n ++ rest) = some (.list n, rest) := by
  refine readHeader?_header rest (fun hsmall ↦ ?_) (by simp) (fun _ ↦ rfl) (fun _ ↦ rfl) hn
  have hb : (0x90 + n.toUInt8).toNat = 0x90 + n := toNat_add_toUInt8 (by simp; omega)
  simp (disch := omega) only [readHeader?, hb, if_pos, if_neg, Nat.add_sub_cancel_left]

theorem readHeader?_table {n : ℕ} (hn : n < 2 ^ 32) (rest : List UInt8) :
    readHeader? (header 0x80 16 none 0xDE 0xDF n ++ rest) = some (.table n, rest) := by
  refine readHeader?_header rest (fun hsmall ↦ ?_) (by simp) (fun _ ↦ rfl) (fun _ ↦ rfl) hn
  have hb : (0x80 + n.toUInt8).toNat = 0x80 + n := toNat_add_toUInt8 (by simp; omega)
  simp (disch := omega) only [readHeader?, hb, if_pos, if_neg, Nat.add_sub_cancel_left]

theorem readHeader?_ordinal {n : ℕ} (hn : n < UInt64.size) (rest : List UInt8) :
    readHeader? (writeOrdinal n ++ rest) = some (.atom (.ordinal n), rest) := by
  have hwide (k : ℕ) (h : n < 256 ^ k) : sized? k (bigEndian k n ++ rest)
      (fun n ↦ Header.atom (.ordinal n)) = some (.atom (.ordinal n), rest) :=
    sized?_bigEndian h rest _
  rw [writeOrdinal]
  by_cases h : n < 0x80
  · have hb : n.toUInt8.toNat = n := Nat.mod_eq_of_lt (show n < 256 by omega)
    simp only [if_pos h, List.singleton_append, readHeader?, hb]
  by_cases h1 : n < 0x100
  · rw [if_neg h, if_pos h1]
    exact hwide 1 h1
  by_cases h2 : n < 0x10000
  · rw [if_neg h, if_neg h1, if_pos h2]
    exact hwide 2 h2
  by_cases h4 : n < 0x100000000
  · rw [if_neg h, if_neg h1, if_neg h2, if_pos h4]
    exact hwide 4 h4
  · rw [if_neg h, if_neg h1, if_neg h2, if_neg h4]
    exact hwide 8 hn

theorem readHeader?_real (x : Binary64) (rest : List UInt8) :
    readHeader? (0xCB :: bigEndian 8 x.bits.toNat ++ rest) = some (.atom (.real x), rest) := by
  have hbits := sized?_bigEndian (show x.bits.toNat < 256 ^ 8 from x.bits.toNat_lt) rest
    fun n ↦ Header.atom (.real ⟨n.toUInt64⟩)
  rw [show x.bits.toNat.toUInt64 = x.bits from UInt64.ofNat_toNat] at hbits
  exact hbits

/-! ### Data -/

/-- The bytes of a text are those of a text. -/
theorem ofText_toUTF8 (s : String) : ofText s.toUTF8.data.toList = .text s := by
  have hvalid : ByteArray.IsValidUTF8 ⟨s.toUTF8.data.toList.toArray⟩ := s.isValidUTF8
  rw [ofText, String.fromUTF8?, dif_pos hvalid]
  rfl

theorem write_ordinal (n : ℕ) : write (.ordinal n) = writeOrdinal n := rfl

theorem write_real (x : Binary64) : write (.real x) = 0xCB :: bigEndian 8 x.bits.toNat := rfl

theorem write_text (s : String) : write (.text s) =
    header 0xA0 32 (some 0xD9) 0xDA 0xDB s.toUTF8.data.toList.length ++ s.toUTF8.data.toList := rfl

theorem write_list (ds : List Datum) :
    write (.list ds) = header 0x90 16 none 0xDC 0xDD ds.length ++ ds.flatMap write := by
  have hitems : writeItems ds = ds.flatMap write := by
    induction ds with
    | nil => rfl
    | cons d ds ih => exact congrArg (write d ++ ·) ih
  exact congrArg (header 0x90 16 none 0xDC 0xDD ds.length ++ ·) hitems

theorem write_table (es : List (Datum × Datum)) :
    write (.table es) = header 0x80 16 none 0xDE 0xDF es.length ++ es.flatMap writeEntry := by
  have hentries : writeEntries es = es.flatMap writeEntry := by
    induction es with
    | nil => rfl
    | cons e es ih => exact congrArg (writeEntry e ++ ·) ih
  exact congrArg (header 0x80 16 none 0xDE 0xDF es.length ++ ·) hentries

theorem writeEntry_mk (key d : Datum) : writeEntry (key, d) = write key ++ write d := rfl

theorem readItems?_succ {β : Type} (item : List UInt8 → Option (β × List UInt8)) (n : ℕ)
    (bs : List UInt8) : readItems? item (n + 1) bs = (item bs).bind fun p ↦
      (readItems? item n p.2).bind fun q ↦ some (p.1 :: q.1, q.2) := rfl

/-- Items that are each read back, whatever follows them, are read back together. -/
theorem readItems?_flatMap {β : Type} {item : List UInt8 → Option (β × List UInt8)}
    {put : β → List UInt8} (xs : List β)
    (h : ∀ x ∈ xs, ∀ rest, item (put x ++ rest) = some (x, rest)) (rest : List UInt8) :
    readItems? item xs.length (xs.flatMap put ++ rest) = some (xs, rest) := by
  induction xs with
  | nil => rfl
  | cons x xs ih =>
      have hlater := ih fun y hy ↦ h y (List.mem_cons_of_mem x hy)
      rw [List.length_cons, List.flatMap_cons, List.append_assoc, readItems?_succ,
        h x List.mem_cons_self]
      simp only [Option.bind_some, hlater]

/-- A short text is read back. -/
theorem readValue?_write_text {s : String} (hs : s.utf8ByteSize < 2 ^ 32) (depth : ℕ)
    (rest : List UInt8) :
    readValue? depth (write (.text s) ++ rest) = some (.text s, rest) := by
  have hheader := readHeader?_text (n := s.toUTF8.data.toList.length) hs
    (s.toUTF8.data.toList ++ rest)
  rw [readValue?, write_text, List.append_assoc, hheader]
  simp only [split?_append, Option.map_some, ofText_toUTF8]

/-- Data of records is read back, whatever follows it. -/
theorem readValue?_write {depth : ℕ} {d : Datum} (h : Plain (· < 2 ^ 32) depth d)
    (rest : List UInt8) : readValue? depth (write d ++ rest) = some (d, rest) := by
  induction h generalizing rest with
  | null => rw [readValue?]; rfl
  | ordinal hn => rw [readValue?, write_ordinal, readHeader?_ordinal hn]
  | real => rw [readValue?, write_real, readHeader?_real]
  | text hs => exact readValue?_write_text hs _ rest
  | list hlength _ ih =>
      rw [readValue?, write_list, List.append_assoc, readHeader?_list hlength]
      simp only [readItems?_flatMap _ ih, Option.map_some]
  | @table k fields hlength hnames _ ih =>
      have hentry : ∀ e ∈ fields.map fun f ↦ (Datum.text f.1, f.2), ∀ rest,
          readPair? (readValue? k) (writeEntry e ++ rest) = some (e, rest) := by
        intro e he rest
        obtain ⟨f, hf, rfl⟩ := List.mem_map.mp he
        rw [writeEntry_mk, List.append_assoc, readPair?, readValue?_write_text (hnames f hf)]
        simp only [Option.bind_eq_bind, Option.bind_some, ih f hf]
      have hitems := readItems?_flatMap _ hentry rest
      rw [List.length_map] at hitems
      rw [Datum.record_eq, readValue?, write_table, List.append_assoc, List.length_map,
        readHeader?_table hlength]
      simp only [hitems, Option.map_some]

/-! ### Designs -/

/-- Everything that is written is read back as it was. -/
theorem echoes : Echoes id fun _ ↦ true where
  null := rfl
  text _ := rfl
  count? hn := if_pos hn
  real? _ := rfl
  list ds := by rw [List.map_id, id]
  table es := (congrArg Datum.table es.map_id).symm

/-- A design whose texts and lists are shorter than `2 ^ 32` and whose resolution is below `2 ^ 64`
is read back as it was: all numbers bit for bit, be they finite, infinite, NaNs or zeros. -/
theorem decode?_encode {d : Design Binary64} (hd : d.Bounded (· < 2 ^ 32)) :
    decode? (encode d) = some d := by
  have hplain : Plain (· < 2 ^ 32) maxDepth (toDatum d) :=
    .design (fun n hn ↦ by omega) hd
  have hread := readValue?_write hplain []
  rw [List.append_nil] at hread
  have hkeeps : d.allRoots.all (keepsRoot fun _ ↦ true) = true :=
    List.all_eq_true.mpr fun _ _ ↦ rfl
  have hecho := echoes.ofDatum?_design hd.resolution
  rw [hkeeps, if_pos rfl] at hecho
  rw [decode?, read?, encode, hread]
  exact hecho

/-- A NaN with a payload, a negative zero, texts outside ASCII and an empty error. -/
theorem decode?_encode_nan :
    let d : Design Binary64 := ⟨[⟨"0/0", ⟨⟨0xFFF8000000000001⟩, .infinity⟩, none⟩], [],
      ⟨2 ^ 64 - 1, ⟨"−0", ⟨-0, 1⟩, some "✗"⟩, ⟨"", ⟨0, 0⟩, some ""⟩⟩⟩
    d.Bounded (· < 2 ^ 32) ∧ decode? (encode d) = some d := by
  intro d
  have hroots : ∀ r ∈ d.allRoots, r.Bounded (· < 2 ^ 32) := by
    intro r hr
    simp only [d, Design.allRoots, List.append_nil, List.cons_append, List.nil_append,
      List.mem_cons, List.not_mem_nil, or_false] at hr
    obtain rfl | rfl | rfl := hr
    · exact ⟨by decide, by decide⟩
    · exact ⟨by decide, by decide⟩
    · exact ⟨by decide, by decide⟩
  have hd : d.Bounded (· < 2 ^ 32) := ⟨by decide, by decide, by decide, hroots⟩
  exact ⟨hd, decode?_encode hd⟩

end MessagePack

end Storage

end ZPlane
