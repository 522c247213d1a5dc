import Mathlib
import ZPlane.Storage.Record
import ZPlane.Proofs.Storage.JsonNumber
import ZPlane.Proofs.Storage.Record

/-!
# JSON never alters a design

Data of records is read back from its text as its `echo` (`readValue?_write`): whole numbers come
back as integers, finite numbers bit for bit, texts with all their characters, and numbers that are
not finite as null.  So a design is read back as it was if all its numbers are finite, and it is
refused otherwise (`decode?_encode_iff`).
-/

namespace ZPlane

namespace Storage

namespace Json

/-! ### Texts -/

/-- What a character is written as between quotes. -/
def pieceOf (c : Char) : Piece :=
  if c.toNat < 0x20 ∧ c ∉ ['\x08', '\t', '\n', '\x0c', '\r'] then .unit c.toNat else .char c

/-- The four digits that a control character is written with are read back. -/
theorem hexUnit?_digitChar : ∀ n < 0x20, hexUnit? (n / 4096 % 16).digitChar
    (n / 256 % 16).digitChar (n / 16 % 16).digitChar (n % 16).digitChar = some n := by
  decide

/-- A character is read back as its piece. -/
theorem readPieces?_writeChar (c : Char) (cs : List Char) :
    readPieces? (writeChar c ++ cs) = (readPieces? cs).map fun p ↦ (pieceOf c :: p.1, p.2) := by
  unfold writeChar
  split_ifs with h hb ht hn hf hr hcontrol
  · rcases h with rfl | rfl
    · rfl
    · rfl
  · subst hb
    rfl
  · subst ht
    rfl
  · subst hn
    rfl
  · subst hf
    rfl
  · subst hr
    rfl
  · have hpiece : pieceOf c = .unit c.toNat := if_pos ⟨hcontrol, by simp [hb, ht, hn, hf, hr]⟩
    rw [hpiece]
    simp only [hex4, List.map_cons, List.map_nil, List.cons_append, List.nil_append, readPieces?,
      hexUnit?_digitChar _ hcontrol]
  · have hpiece : pieceOf c = .char c := if_neg fun h ↦ hcontrol h.1
    rw [hpiece]
    obtain ⟨hquote, hslash⟩ := not_or.mp h
    simp [readPieces?, hquote, hslash, hcontrol]

/-- Characters are read back up to the quote behind them. -/
theorem readPieces?_flatMap (cs rest : List Char) :
    readPieces? (cs.flatMap writeChar ++ doubleQuote :: rest) = some (cs.map pieceOf, rest) := by
  induction cs with
  | nil => rfl
  | cons c cs ih =>
      rw [List.flatMap_cons, List.append_assoc, readPieces?_writeChar, ih]
      rfl

/-- The unit of a control character stands for it alone. -/
theorem joinPieces?_unit {n : ℕ} (hn : n < 0x20) (ps : List Piece) :
    joinPieces? (.unit n :: ps) = (joinPieces? ps).map (Char.ofNat n :: ·) := by
  have hlow : ¬ 0xD800 ≤ n := by omega
  have hhigh : ¬ 0xDC00 ≤ n := by omega
  match ps with
  | [] => simp [joinPieces?, hlow]
  | .char c :: ps => simp [joinPieces?, hlow]
  | .unit m :: ps => simp [joinPieces?, hlow, hhigh]

/-- The pieces of characters are joined to these. -/
theorem joinPieces?_map (cs : List Char) : joinPieces? (cs.map pieceOf) = some cs := by
  induction cs with
  | nil => rfl
  | cons c cs ih =>
      rw [List.map_cons, pieceOf]
      split
      case isTrue h => rw [joinPieces?_unit h.1, ih, Option.map_some, Char.ofNat_toNat]
      case isFalse => rw [joinPieces?, ih, Option.map_some]

/-- A text in quotes is read back behind the first of them. -/
theorem readText?_writeText (s : String) (rest : List Char) :
    readText? (s.toList.flatMap writeChar ++ doubleQuote :: rest) = some (.text s, rest) := by
  rw [readText?, readPieces?_flatMap]
  simp only [joinPieces?_map, String.ofList_toList]

/-! ### Blanks -/

/-- A new line is skipped with its indentation. -/
theorem skipBlanks_newLine (indent : ℕ) (cs : List Char) :
    skipBlanks (newLine indent ++ cs) = skipBlanks cs := by
  have hblank : ∀ c ∈ newLine indent, isBlank c = true := by
    intro c hc
    rcases List.mem_cons.mp hc with rfl | hspace
    · rfl
    · rw [List.eq_of_mem_replicate hspace]
      rfl
  exact List.dropWhile_append_of_pos hblank

theorem skipBlanks_idem (cs : List Char) : skipBlanks (skipBlanks cs) = skipBlanks cs :=
  List.dropWhile_idempotent isBlank cs

theorem length_newLine (indent : ℕ) : (newLine indent).length = indent + 1 := by simp [newLine]

/-! ### What is written -/

section Writing

variable (indent : ℕ) (d : Datum) (ds : List Datum) (es : List (Datum × Datum))

@[simp] theorem write_null : write indent .null = "null".toList := rfl

@[simp] theorem write_ordinal (n : ℕ) : write indent (.ordinal n) = digits n := rfl

@[simp] theorem write_real (x : Binary64) : write indent (.real x) = writeReal x := rfl

@[simp] theorem write_text (s : String) : write indent (.text s) = writeText s := rfl

theorem write_list_cons : write indent (.list (d :: ds)) =
    '[' :: (writeItems (indent + 2) (d :: ds) ++ newLine indent) ++ [']'] := rfl

theorem writeItems_cons : writeItems indent (d :: ds) =
    newLine indent ++ write indent d ++ (if ds.isEmpty then [] else [',']) ++
      writeItems indent ds := rfl

variable (e : Datum × Datum)

theorem write_table_cons : write indent (.table (e :: es)) =
    '\x7b' :: (writeEntries (indent + 2) (e :: es) ++ newLine indent) ++ ['\x7d'] := rfl

theorem writeEntries_cons : writeEntries indent (e :: es) =
    newLine indent ++ writeEntry indent e ++ (if es.isEmpty then [] else [',']) ++
      writeEntries indent es := rfl

theorem writeEntry_eq :
    writeEntry indent e = write indent e.1 ++ ':' :: ' ' :: write indent e.2 := by
  cases e
  rfl

/-! The fuel of a reader bounds the length of the text: that of each part is smaller. -/

theorem length_list_le : ds.length ≤ (writeItems indent ds).length := by
  induction ds with
  | nil => exact Nat.zero_le _
  | cons d ds ih =>
      rw [writeItems_cons]
      simp only [List.length_append, List.length_cons, length_newLine]
      omega

theorem length_write_list :
    (writeItems (indent + 2) ds).length + 2 ≤ (write indent (.list ds)).length := by
  cases ds with
  | nil => exact le_rfl
  | cons d ds =>
      rw [write_list_cons]
      simp only [List.cons_append, List.length_cons, List.length_append, List.length_nil]
      omega

theorem length_table_le : es.length ≤ (writeEntries indent es).length := by
  induction es with
  | nil => exact Nat.zero_le _
  | cons e es ih =>
      rw [writeEntries_cons]
      simp only [List.length_append, List.length_cons, length_newLine]
      omega

theorem length_write_table :
    (writeEntries (indent + 2) es).length + 2 ≤ (write indent (.table es)).length := by
  cases es with
  | nil => exact le_rfl
  | cons e es =>
      rw [write_table_cons]
      simp only [List.cons_append, List.length_cons, List.length_append, List.length_nil]
      omega

variable {d ds e es}

theorem length_le_writeItems (hd : d ∈ ds) :
    (write indent d).length ≤ (writeItems indent ds).length := by
  induction ds with
  | nil => cases hd
  | cons d' ds ih =>
      rw [writeItems_cons]
      simp only [List.length_append]
      rcases List.mem_cons.mp hd with rfl | hd
      · omega
      · have := ih hd
        omega

theorem length_le_writeEntries (he : e ∈ es) :
    (write indent e.2).length ≤ (writeEntries indent es).length := by
  induction es with
  | nil => cases he
  | cons e' es ih =>
      rw [writeEntries_cons]
      simp only [List.length_append]
      rcases List.mem_cons.mp he with rfl | he
      · rw [writeEntry_eq]
        simp only [List.length_append, List.length_cons]
        omega
      · have := ih he
        omega

end Writing

/-! ### What comes back -/

mutual

/-- What data is read back as. -/
def echo : Datum → Datum
  | .ordinal n => .integer n
  | .real x => if x.isFinite then .real x else .null
  | .list ds => .list (echoItems ds)
  | .table es => .table (echoEntries es)
  | d => d

def echoItems : List Datum → List Datum
  | [] => []
  | d :: ds => echo d :: echoItems ds

def echoEntries : List (Datum × Datum) → List (Datum × Datum)
  | [] => []
  | e :: es => echoEntry e :: echoEntries es

def echoEntry : Datum × Datum → Datum × Datum
  | (key, d) => (key, echo d)

end

theorem echo_list (ds : List Datum) : echo (.list ds) = .list (ds.map echo) := by
  have hitems : echoItems ds = ds.map echo := by
    induction ds with
    | nil => rfl
    | cons d ds ih => exact congrArg (echo d :: ·) ih
  exact congrArg Datum.list hitems

theorem echo_table (es : List (Datum × Datum)) :
    echo (.table es) = .table (es.map fun e ↦ (e.1, echo e.2)) := by
  have hentries : echoEntries es = es.map fun e ↦ (e.1, echo e.2) := by
    induction es with
    | nil => rfl
    | cons e es ih =>
        obtain ⟨key, d⟩ := e
        exact congrArg ((key, echo d) :: ·) ih
  exact congrArg Datum.table hentries

theorem echo_real (x : Binary64) : echo (.real x) = if x.isFinite then .real x else .null := rfl

/-- Of what is written, only the numbers that are not finite are lost. -/
theorem echoes : Echoes echo Binary64.isFinite where
  null := rfl
  text _ := rfl
  count? {n} hn := by
    have hword : (0 : ℤ) ≤ n ∧ (n : ℤ) < UInt64.size := ⟨Int.natCast_nonneg n, by exact_mod_cast hn⟩
    show (Datum.integer n).count? = some n
    rw [Datum.count?, if_pos hword, Int.toNat_natCast]
  real? x := by
    rw [echo_real]
    cases x.isFinite with
    | true | false => rfl
  list := echo_list
  table := echo_table

/-! ### How values begin -/

/-- A value begins with no blank, and not with the end of a list. -/
def Begins (cs : List Char) : Prop := ∃ c cs', cs = c :: cs' ∧ isBlank c = false ∧ c ≠ ']'

namespace Begins

variable {cs : List Char} (h : Begins cs)
include h

theorem append (rest : List Char) : Begins (cs ++ rest) := by
  obtain ⟨c, cs', rfl, hc⟩ := h
  exact ⟨c, cs' ++ rest, rfl, hc⟩

theorem head?_ne : ∀ c ∈ cs.head?, c ≠ ']' := by
  obtain ⟨c, cs', rfl, -, hc⟩ := h
  rintro _ ⟨⟩
  exact hc

/-- There is no blank to skip in front of a value. -/
theorem skipBlanks_eq : skipBlanks cs = cs := by
  obtain ⟨c, cs', rfl, hblank, -⟩ := h
  exact List.dropWhile_cons_of_neg (by simp [hblank])

end Begins

/-- A number begins with a digit or with its sign. -/
def BeginsNumber (cs : List Char) : Prop := ∃ c cs', cs = c :: cs' ∧ (c.isDigit = true ∨ c = '-')

/-- A number does not begin with another character than a digit or a sign. -/
theorem ne_of_isDigit_or {c b : Char} (hc : c.isDigit = true ∨ c = '-')
    (hb : b.isDigit = false ∧ b ≠ '-') : c ≠ b := by
  rintro rfl
  rcases hc with hc | hc
  · rw [hb.1] at hc
    cases hc
  · exact hb.2 hc

namespace BeginsNumber

variable {cs : List Char} (h : BeginsNumber cs)
include h

theorem append (rest : List Char) : BeginsNumber (cs ++ rest) := by
  obtain ⟨c, cs', rfl, hc⟩ := h
  exact ⟨c, cs' ++ rest, rfl, hc⟩

/-- A number is a value. -/
theorem begins : Begins cs := by
  obtain ⟨c, cs', rfl, hc⟩ := h
  have hspace : c ≠ ' ' := ne_of_isDigit_or hc (by decide)
  have hbreak : c ≠ '\n' := ne_of_isDigit_or hc (by decide)
  have htab : c ≠ '\t' := ne_of_isDigit_or hc (by decide)
  have hreturn : c ≠ '\r' := ne_of_isDigit_or hc (by decide)
  exact ⟨c, cs', rfl, by simp [isBlank, hspace, hbreak, htab, hreturn],
    ne_of_isDigit_or hc (by decide)⟩

/-- What begins as a number is read as one. -/
theorem readValue?_eq (fuel : ℕ) : readValue? (fuel + 1) cs = readNumber? cs := by
  rw [readValue?, h.begins.skipBlanks_eq]
  obtain ⟨c, cs', rfl, hc⟩ := h
  split
  case h_1 heq => exact absurd (List.cons.inj heq).1 (ne_of_isDigit_or hc (by decide))
  case h_2 heq => exact absurd (List.cons.inj heq).1 (ne_of_isDigit_or hc (by decide))
  case h_3 heq => exact absurd (List.cons.inj heq).1 (ne_of_isDigit_or hc (by decide))
  case h_4 heq => exact absurd (List.cons.inj heq).1 (ne_of_isDigit_or hc (by decide))
  case h_5 heq => exact absurd (List.cons.inj heq).1 (ne_of_isDigit_or hc (by decide))
  case h_6 heq =>
    obtain ⟨rfl, rfl⟩ := List.cons.inj heq
    exact if_neg (ne_of_isDigit_or hc (by decide))
  case h_7 heq => cases heq

end BeginsNumber

theorem beginsNumber_digits (n : ℕ) : BeginsNumber (digits n) := by
  obtain ⟨c, cs, hdigits⟩ := List.exists_cons_of_ne_nil (digits_ne_nil n)
  exact ⟨c, cs, hdigits, .inl (isDigit_of_mem_digits (hdigits ▸ List.mem_cons_self))⟩

theorem beginsNumber_writeReal {x : Binary64} (hx : x.isFinite = true) :
    BeginsNumber (writeReal x) := by
  obtain ⟨n, -, htext, -⟩ := exists_numeral_writeReal hx
  rw [htext, Binary64.signText]
  split
  case isTrue => exact ⟨'-', _, rfl, .inr rfl⟩
  case isFalse =>
    obtain ⟨c, cs, hwhole⟩ := List.exists_cons_of_ne_nil n.whole_ne_nil
    refine ⟨c, cs ++ (n.fractionText ++ n.exponentText), ?_,
      .inl (n.whole_isDigit c (hwhole ▸ List.mem_cons_self))⟩
    rw [Parsing.Numeral.text, hwhole]
    rfl

variable {short : ℕ → Prop} {k : ℕ}

/-- Plain data begin as values do. -/
theorem begins_write {d : Datum} (h : Plain short k d) (indent : ℕ) : Begins (write indent d) := by
  cases h with
  | null => exact ⟨'n', _, rfl, by decide⟩
  | @ordinal _ n => exact (beginsNumber_digits n).begins
  | @real _ x =>
      rw [write_real]
      cases hx : x.isFinite with
      | true => exact (beginsNumber_writeReal hx).begins
      | false =>
          rw [writeReal, if_pos hx]
          exact ⟨'n', _, rfl, by decide⟩
  | text => exact ⟨doubleQuote, _, rfl, by decide⟩
  | @list _ ds =>
      cases ds with
      | nil | cons d ds => exact ⟨'[', _, rfl, by decide⟩
  | @table _ fields =>
      cases fields with
      | nil | cons f fields => exact ⟨'\x7b', _, rfl, by decide⟩

/-! ### Lists -/

/-- The blanks in front of a value do not matter. -/
theorem readValue?_congr {cs cs' : List Char} (h : skipBlanks cs = skipBlanks cs') (fuel : ℕ) :
    readValue? fuel cs = readValue? fuel cs' := by
  cases fuel with
  | zero => rfl
  | succ fuel => rw [readValue?, readValue?, h]

/-- A number ends at a new line. -/
theorem endsNumber_newLine (indent : ℕ) (cs : List Char) : EndsNumber (newLine indent ++ cs) := by
  rintro _ ⟨⟩
  decide

/-- An item is read back, and behind a comma the items go on. -/
theorem readItems?_write {fuel indent : ℕ} {d : Datum} {cs : List Char}
    (hd : readValue? fuel (write indent d ++ cs) = some (echo d, cs)) (n : ℕ) (rest : List Char) :
    (skipBlanks cs = ']' :: rest → readItems? (readValue? fuel) (n + 1)
      (newLine indent ++ (write indent d ++ cs)) = some ([echo d], rest)) ∧
    (skipBlanks cs = ',' :: rest → readItems? (readValue? fuel) (n + 1)
      (newLine indent ++ (write indent d ++ cs)) =
        (readItems? (readValue? fuel) n rest).map fun p ↦ (echo d :: p.1, p.2)) := by
  have hitem : readValue? fuel (newLine indent ++ (write indent d ++ cs)) = some (echo d, cs) := by
    rw [readValue?_congr (skipBlanks_newLine indent _), hd]
  refine ⟨fun hclose ↦ ?_, fun hcomma ↦ ?_⟩
  · simp only [readItems?, hitem, Option.bind_eq_bind, Option.bind_some, hclose]
  · simp only [readItems?, hitem, Option.bind_eq_bind, Option.bind_some, hcomma]
    cases readItems? (readValue? fuel) n rest with
    | none | some _ => rfl

/-- Items that are read back one by one are read back together. -/
theorem readItems?_writeItems {fuel indent : ℕ} {ds : List Datum} (hne : ds ≠ [])
    (hitem : ∀ d ∈ ds, ∀ rest, EndsNumber rest →
      readValue? fuel (write indent d ++ rest) = some (echo d, rest))
    {n : ℕ} (hn : ds.length ≤ n) (outer : ℕ) (rest : List Char) :
    readItems? (readValue? fuel) n (writeItems indent ds ++ (newLine outer ++ ']' :: rest)) =
      some (ds.map echo, rest) := by
  induction ds generalizing n with
  | nil => exact absurd rfl hne
  | cons d ds ih =>
      obtain ⟨n, rfl⟩ : ∃ m, n = m + 1 := ⟨n - 1, by simp at hn; omega⟩
      have hd := hitem d List.mem_cons_self
      rw [writeItems_cons]
      cases ds with
      | nil =>
          have hclose : skipBlanks (newLine outer ++ ']' :: rest) = ']' :: rest :=
            skipBlanks_newLine outer _
          have hread := (readItems?_write (hd _ (endsNumber_newLine outer (']' :: rest))) n rest).1
            hclose
          rw [List.append_assoc, List.append_assoc, List.append_assoc]
          exact hread
      | cons d' ds =>
          have hlater := ih (List.cons_ne_nil d' ds)
            (fun e he ↦ hitem e (List.mem_cons_of_mem d he)) (Nat.le_of_succ_le_succ hn)
          have hread := (readItems?_write (hd (',' :: (writeItems indent (d' :: ds) ++
            (newLine outer ++ ']' :: rest))) (by rintro _ ⟨⟩; decide)) n _).2 rfl
          rw [hlater, Option.map_some] at hread
          rw [List.append_assoc, List.append_assoc, List.append_assoc]
          exact hread

/-- Behind its bracket, a list that does not end at once is read item by item. -/
theorem readValue?_bracket {cs : List Char} (h : ∀ c ∈ (skipBlanks cs).head?, c ≠ ']')
    (fuel : ℕ) : readValue? (fuel + 1) ('[' :: cs) =
      (readItems? (readValue? fuel) fuel cs).map fun p ↦ (.list p.1, p.2) := by
  have hbracket : skipBlanks ('[' :: cs) = '[' :: cs := rfl
  have hitems : readItems? (readValue? fuel) fuel (skipBlanks cs) =
      readItems? (readValue? fuel) fuel cs := by
    cases fuel with
    | zero => rfl
    | succ fuel => rw [readItems?, readItems?, readValue?_congr (skipBlanks_idem cs)]
  rw [← hitems]
  simp only [readValue?, hbracket]
  split
  case h_1 hclose => exact absurd rfl (h ']' (by rw [hclose]; rfl))
  case h_2 => rfl

/-- A list is read back if its items are, with one step of the reader more. -/
theorem readValue?_write_list {fuel indent : ℕ} {ds : List Datum}
    (hbegins : ∀ d ∈ ds, Begins (write (indent + 2) d))
    (hitem : ∀ d ∈ ds, ∀ rest, EndsNumber rest →
      readValue? fuel (write (indent + 2) d ++ rest) = some (echo d, rest))
    (hlength : ds.length ≤ fuel) (rest : List Char) :
    readValue? (fuel + 1) (write indent (.list ds) ++ rest) = some (echo (.list ds), rest) := by
  cases ds with
  | nil => rfl
  | cons d ds =>
      have hread := readItems?_writeItems (List.cons_ne_nil d ds) hitem hlength indent rest
      have hopen : ∀ c ∈ (skipBlanks (writeItems (indent + 2) (d :: ds) ++
          (newLine indent ++ ']' :: rest))).head?, c ≠ ']' := by
        have hd := (hbegins d List.mem_cons_self).append
        rw [writeItems_cons, List.append_assoc, List.append_assoc, List.append_assoc,
          skipBlanks_newLine, (hd _).skipBlanks_eq]
        exact (hd _).head?_ne
      have htext : write indent (.list (d :: ds)) ++ rest =
          '[' :: (writeItems (indent + 2) (d :: ds) ++ (newLine indent ++ ']' :: rest)) := by
        rw [write_list_cons, List.append_assoc, List.cons_append, List.append_assoc]
        rfl
      rw [htext, readValue?_bracket hopen, hread, echo_list]
      rfl

/-! ### Tables -/

/-- An entry is read back, and behind a comma the entries go on. -/
theorem readEntries?_writeEntry {fuel indent : ℕ} (name : String) {d : Datum} {cs : List Char}
    (hd : readValue? fuel (write indent d ++ cs) = some (echo d, cs)) (n : ℕ) (rest : List Char) :
    (skipBlanks cs = '\x7d' :: rest → readEntries? (readValue? fuel) (n + 1)
      (newLine indent ++ (writeEntry indent (.text name, d) ++ cs)) =
        some ([(.text name, echo d)], rest)) ∧
    (skipBlanks cs = ',' :: rest → readEntries? (readValue? fuel) (n + 1)
      (newLine indent ++ (writeEntry indent (.text name, d) ++ cs)) =
        (readEntries? (readValue? fuel) n rest).map fun p ↦
          ((.text name, echo d) :: p.1, p.2)) := by
  have hspace : skipBlanks (' ' :: (write indent d ++ cs)) = skipBlanks (write indent d ++ cs) :=
    rfl
  have hvalue : readValue? fuel (' ' :: (write indent d ++ cs)) = some (echo d, cs) := by
    rw [readValue?_congr hspace, hd]
  have htext : writeEntry indent (.text name, d) ++ cs = doubleQuote ::
      (name.toList.flatMap writeChar ++ doubleQuote :: ':' :: ' ' :: (write indent d ++ cs)) := by
    rw [writeEntry_eq, write_text, writeText]
    simp only [List.cons_append, List.append_assoc, List.nil_append]
  have hquote (cs : List Char) : skipBlanks (doubleQuote :: cs) = doubleQuote :: cs := rfl
  have hcolon (cs : List Char) : skipBlanks (':' :: cs) = ':' :: cs := rfl
  rw [readEntries?, skipBlanks_newLine, htext, hquote]
  simp only [ne_eq, not_true_eq_false, if_false, readText?_writeText, Option.bind_eq_bind,
    Option.bind_some, hcolon, hvalue]
  refine ⟨fun hclose ↦ ?_, fun hcomma ↦ ?_⟩
  · simp only [hclose]
  · simp only [hcomma]
    cases readEntries? (readValue? fuel) n rest with
    | none | some _ => rfl

/-- Entries whose values are read back one by one are read back together. -/
theorem readEntries?_writeEntries {fuel indent : ℕ} {fields : List (String × Datum)}
    (hne : fields ≠ [])
    (hvalue : ∀ f ∈ fields, ∀ rest, EndsNumber rest →
      readValue? fuel (write indent f.2 ++ rest) = some (echo f.2, rest))
    {n : ℕ} (hn : fields.length ≤ n) (outer : ℕ) (rest : List Char) :
    readEntries? (readValue? fuel) n
      (writeEntries indent (fields.map fun f ↦ (.text f.1, f.2)) ++
        (newLine outer ++ '\x7d' :: rest)) =
      some (fields.map fun f ↦ (.text f.1, echo f.2), rest) := by
  induction fields generalizing n with
  | nil => exact absurd rfl hne
  | cons f fields ih =>
      obtain ⟨name, d⟩ := f
      obtain ⟨n, rfl⟩ : ∃ m, n = m + 1 := ⟨n - 1, by simp at hn; omega⟩
      have hd := hvalue (name, d) List.mem_cons_self
      rw [List.map_cons, writeEntries_cons]
      cases fields with
      | nil =>
          have hclose : skipBlanks (newLine outer ++ '\x7d' :: rest) = '\x7d' :: rest :=
            skipBlanks_newLine outer _
          have hread := (readEntries?_writeEntry name
            (hd _ (endsNumber_newLine outer ('\x7d' :: rest))) n rest).1 hclose
          rw [List.append_assoc, List.append_assoc, List.append_assoc]
          exact hread
      | cons f' fields =>
          have hlater := ih (List.cons_ne_nil f' fields)
            (fun e he ↦ hvalue e (List.mem_cons_of_mem _ he)) (Nat.le_of_succ_le_succ hn)
          have hread := (readEntries?_writeEntry name (hd (',' :: (writeEntries indent
            ((f' :: fields).map fun f ↦ (.text f.1, f.2)) ++
              (newLine outer ++ '\x7d' :: rest))) (by rintro _ ⟨⟩; decide)) n _).2 rfl
          rw [hlater, Option.map_some] at hread
          rw [List.append_assoc, List.append_assoc, List.append_assoc]
          exact hread

/-- Behind its brace, a table that does not end at once is read entry by entry. -/
theorem readValue?_brace {cs : List Char} (h : ∀ c ∈ (skipBlanks cs).head?, c ≠ '\x7d')
    (fuel : ℕ) : readValue? (fuel + 1) ('\x7b' :: cs) =
      (readEntries? (readValue? fuel) fuel cs).map fun p ↦ (.table p.1, p.2) := by
  have hbrace : skipBlanks ('\x7b' :: cs) = '\x7b' :: cs := rfl
  have hentries : readEntries? (readValue? fuel) fuel (skipBlanks cs) =
      readEntries? (readValue? fuel) fuel cs := by
    cases fuel with
    | zero => rfl
    | succ fuel => rw [readEntries?, readEntries?, skipBlanks_idem]
  rw [← hentries]
  simp only [readValue?, hbrace]
  split
  case h_1 hclose => exact absurd rfl (h '\x7d' (by rw [hclose]; rfl))
  case h_2 => rfl

/-- A record is read back if its fields are, with one step of the reader more. -/
theorem readValue?_write_record {fuel indent : ℕ} {fields : List (String × Datum)}
    (hvalue : ∀ f ∈ fields, ∀ rest, EndsNumber rest →
      readValue? fuel (write (indent + 2) f.2 ++ rest) = some (echo f.2, rest))
    (hlength : fields.length ≤ fuel) (rest : List Char) :
    readValue? (fuel + 1) (write indent (.record fields) ++ rest) =
      some (echo (.record fields), rest) := by
  cases fields with
  | nil => rfl
  | cons f fields =>
      have hread := readEntries?_writeEntries (List.cons_ne_nil f fields) hvalue hlength indent rest
      have hopen : ∀ c ∈ (skipBlanks (writeEntries (indent + 2)
          ((f :: fields).map fun f ↦ (.text f.1, f.2)) ++
            (newLine indent ++ '\x7d' :: rest))).head?, c ≠ '\x7d' := by
        rw [List.map_cons, writeEntries_cons, List.append_assoc, List.append_assoc,
          List.append_assoc, skipBlanks_newLine, writeEntry_eq]
        rintro _ ⟨⟩
        decide
      have htext : write indent (.record (f :: fields)) ++ rest = '\x7b' ::
          (writeEntries (indent + 2) ((f :: fields).map fun f ↦ (.text f.1, f.2)) ++
            (newLine indent ++ '\x7d' :: rest)) := by
        rw [Datum.record, List.map_cons, write_table_cons, List.append_assoc, List.cons_append,
          List.append_assoc]
        rfl
      rw [htext, readValue?_brace hopen, hread, Datum.record, echo_table, List.map_map]
      rfl

/-! ### Data -/

/-- Numbers are read back if they are finite, and as a null if not. -/
theorem readValue?_write_real (x : Binary64) (fuel indent : ℕ) {rest : List Char}
    (hrest : EndsNumber rest) :
    readValue? (fuel + 1) (write indent (.real x) ++ rest) = some (echo (.real x), rest) := by
  rw [write_real, echo_real]
  cases hx : x.isFinite with
  | true =>
      rw [((beginsNumber_writeReal hx).append rest).readValue?_eq, readNumber?_writeReal hx hrest]
      rfl
  | false =>
      rw [writeReal, if_pos hx]
      rfl

/-- Data of records is read back as its echo, whatever follows it. -/
theorem readValue?_write {d : Datum} (h : Plain short k d) {indent fuel : ℕ}
    (hfuel : (write indent d).length ≤ fuel) (rest : List Char) (hrest : EndsNumber rest) :
    readValue? (fuel + 1) (write indent d ++ rest) = some (echo d, rest) := by
  induction h generalizing indent fuel rest with
  | null => rfl
  | @ordinal _ n hn =>
      rw [write_ordinal, ((beginsNumber_digits n).append rest).readValue?_eq,
        readNumber?_digits hn hrest]
      rfl
  | @real _ x => exact readValue?_write_real x fuel indent hrest
  | @text _ s =>
      rw [write_text, writeText, List.append_assoc, List.singleton_append]
      exact readText?_writeText s rest
  | @list _ ds _ hds ih =>
      have hwrite := length_write_list indent ds
      have hlength := length_list_le (indent + 2) ds
      obtain ⟨fuel, rfl⟩ : ∃ m, fuel = m + 1 := ⟨fuel - 1, by omega⟩
      refine readValue?_write_list (fun d hd ↦ begins_write (hds d hd) _) (fun d hd cs hcs ↦ ?_)
        (by omega) rest
      have hitem := length_le_writeItems (indent + 2) hd
      exact ih d hd (by omega) cs hcs
  | @table _ fields _ _ _ ih =>
      obtain ⟨es, hes, hcount, hmem⟩ : ∃ es, Datum.record fields = .table es ∧
          fields.length = es.length ∧ ∀ f ∈ fields, (.text f.1, f.2) ∈ es :=
        ⟨_, rfl, (List.length_map _).symm, fun f hf ↦ List.mem_map_of_mem hf⟩
      have hwrite := length_write_table indent es
      have hlength := length_table_le (indent + 2) es
      rw [hes] at hfuel
      obtain ⟨fuel, rfl⟩ : ∃ m, fuel = m + 1 := ⟨fuel - 1, by omega⟩
      refine readValue?_write_record (fun f hf cs hcs ↦ ?_) (by omega) rest
      have hvalue : (write (indent + 2) f.2).length ≤ _ := length_le_writeEntries _ (hmem f hf)
      exact ih f hf (by omega) cs hcs

/-! ### Designs -/

/-- A design whose resolution fits a word is read back as it was, every number bit for bit, or not
at all, and not at all just if a root has a value with a part that is not finite. -/
theorem decode?_encode_iff {d : Design Binary64} (hd : d.options.resolution < UInt64.size) :
    (decode? (encode d) = some d ∨ decode? (α := Design Binary64) (encode d) = none) ∧
      (decode? (α := Design Binary64) (encode d) = none ↔
        ∃ r ∈ d.allRoots, r.value.re.isFinite = false ∨ r.value.im.isFinite = false) := by
  have hplain : Plain (fun _ ↦ True) 4 (toDatum d) :=
    .design (fun _ _ ↦ trivial) ⟨hd, trivial, trivial, fun _ _ ↦ ⟨trivial, fun _ _ ↦ trivial⟩⟩
  have hread := readValue?_write hplain (le_refl (write 0 (toDatum d)).length) [] (by rintro _ ⟨⟩)
  rw [List.append_nil] at hread
  have hdecode : decode? (encode d) =
      if d.allRoots.all (keepsRoot Binary64.isFinite) then some d else none := by
    rw [← echoes.ofDatum?_design hd, decode?, encode, String.toList_ofList, read?, hread]
    rfl
  rw [hdecode]
  cases hall : d.allRoots.all (keepsRoot Binary64.isFinite) with
  | true =>
      refine ⟨.inl rfl, iff_of_false (Option.some_ne_none d) ?_⟩
      rintro ⟨r, hr, hparts⟩
      have hkept := List.all_eq_true.mp hall r hr
      rw [keepsRoot, Bool.and_eq_true] at hkept
      simp [hkept] at hparts
  | false =>
      obtain ⟨r, hr, hparts⟩ := List.all_eq_false.mp hall
      rw [keepsRoot, Bool.not_eq_true, Bool.and_eq_false_iff] at hparts
      exact ⟨.inr rfl, iff_of_true rfl ⟨r, hr, hparts⟩⟩

/-- A finite design is read back, with a negative zero, a number that is too small to be normal,
control characters and an error, and one with an infinite gain is not. -/
theorem decode?_encode_iff_controls :
    let finite : Design Binary64 := ⟨[⟨"\x22\\\x01é", ⟨-0, ⟨3⟩⟩, none⟩], [],
      ⟨2 ^ 64 - 1, ⟨"0.1", ⟨0.1, 0⟩, some "\n"⟩, ⟨"", ⟨0, 0⟩, some ""⟩⟩⟩
    let infinite : Design Binary64 :=
      { finite with options.gain := ⟨"1/0", ⟨.infinity, .nan⟩, none⟩ }
    decode? (encode finite) = some finite ∧
      decode? (α := Design Binary64) (encode infinite) = none := by
  intro finite infinite
  have hfinite := decode?_encode_iff (d := finite) (by decide)
  have hinfinite := decode?_encode_iff (d := infinite) (by decide)
  refine ⟨hfinite.1.resolve_right fun hnone ↦ ?_, hinfinite.2.mpr ?_⟩
  · have hkept : ∀ r ∈ finite.allRoots,
        ¬ (r.value.re.isFinite = false ∨ r.value.im.isFinite = false) := by decide +kernel
    obtain ⟨r, hr, hparts⟩ := hfinite.2.mp hnone
    exact hkept r hr hparts
  · exact ⟨infinite.options.gain, by simp [Design.allRoots], .inl (by decide)⟩

end Json

end Storage

end ZPlane
